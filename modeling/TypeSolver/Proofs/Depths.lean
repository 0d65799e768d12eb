import TypeSolver.Proofs.Frames
import TypeSolver.Proofs.Ranks

/-!
# TypeSolver.Proofs.Depths

How deep classes lead, in all stores. A class is `Within` a rank if the unbound classes that it leads
to have at most this rank. When an unbound class is bound, what it is bound to takes its rank, and so
no class comes to lead deeper than before. The exception is the linking of two bound classes: the
unifier compared their types, but aliases and rows can keep a part of a type from being compared.
The guard `tight` asks that nothing came of it. Under this guard a unification takes no class deeper,
and a variable that it makes lies within the rank of what it compared (`Runs.sinking`).
-/

namespace TypeSolver
namespace Store

open Relation

variable {s s' s'' : Store} {Q : Var → Prop} {k : Rank}

/-- The unbound classes that `v` leads to are of rank `k` at most, apart from those in `Q`. -/
def Within (s : Store) (Q : Var → Prop) (k : Rank) (v : Var) : Prop :=
  ∀ r j, s.Reaches v r → s.rank? r = some j → Q r ∨ j ≤ k

def Apart (s : Store) (Q : Var → Prop) (v : Var) : Prop := ∀ q, Q q → ¬ s.Reaches v q

variable {a v x : Var} {t : Ty} {j : Rank} {c : Call}

theorem within_root (h : s.Forest) : s.Within Q k (s.root v) ↔ s.Within Q k v := by
  simp only [Within, reaches_root h]

theorem apart_root (h : s.Forest) : s.Apart Q (s.root v) ↔ s.Apart Q v := by
  simp only [Apart, reaches_root h]

theorem Within.mono {k' : Rank} (h : s.Within Q k v) (hk : k ≤ k') : s.Within Q k' v :=
  fun r j hr hj => (h r j hr hj).imp_right fun hle => hle.trans hk

theorem Within.edge (h : s.Forest) {y : Var} (hx : s.Within Q k x) (he : s.Edge x y) :
    s.Within Q k y := fun r j hr hj => hx r j (.of_edge h he hr) hj

theorem Within.bound (h : s.Formed) (hv : s.Within Q k v) (hk : s.kind v = .bound t) :
    t.Over (s.Within Q k) :=
  (h.fits v t hk).restrict fun w hw =>
    (within_root h.forest).mp (hv.edge h.forest ⟨t, hk, w, hw, rfl⟩)

theorem Apart.bound (h : s.Formed) (hv : s.Apart Q v) (hk : s.kind v = .bound t) :
    t.Over (s.Apart Q) :=
  (h.fits v t hk).restrict fun _ hw q hq => not_reaches_of_bound h.forest hk (hv q hq) hw

theorem within_of_bound (h : s.Forest) (hk : s.kind v = .bound t)
    (ht : ∀ w ∈ t.vars, s.Within Q k w) : s.Within Q k v := by
  have hkr : s.kind (s.root v) = .bound t := by rw [kind_root h, hk]
  intro r j hr hj
  rcases hr.of_bound hkr with rfl | ⟨w, hw, hr⟩
  · rw [kind_eq_free_iff_rank?.mpr ⟨j, hj⟩] at hkr
    cases hkr
  · exact ht w hw r j hr hj

theorem within_of_rank? (h : s.Forest) (hv : s.rank? v = some j) (hj : j ≤ k) : s.Within Q k v := by
  intro r i hr hi
  rw [rank?_of_free h hv hr] at hi
  cases hi
  exact .inr hj

theorem Within.rank_le (h : s.Forest) (hv : s.Within Q k v) (hj : s.rank? v = some j)
    (hq : ¬ Q (s.root v)) : j ≤ k :=
  (hv (s.root v) j .refl (by rw [rank?_root h, hj])).resolve_left hq

/-! ## Writes -/

structure Sealed (s : Store) (D : Var → Prop) : Prop where
  root : ∀ v, D v → D (s.root v)
  edge : ∀ x y, D x → s.Edge x y → D y

namespace Sealed

variable {D : Var → Prop} {v : Var}

theorem reaches (h : s.Sealed D) (hv : D v) (hr : s.Reaches v x) : D x := by
  induction hr with
  | refl => exact h.root v hv
  | tail _ he ih => exact h.edge _ _ ih he

theorem within (h : s.Sealed D) (hf : s.Forest)
    (hrank : ∀ r j, D r → s.root r = r → s.rank? r = some j → Q r ∨ j ≤ k) (hv : D v) :
    s.Within Q k v :=
  fun r j hr hj => hrank r j (h.reaches hv hr) (hr.root_eq hf) hj

theorem put (h : s.Sealed D) (hf : s.Forest) (ha : a < s.size) (hra : s.root a = a)
    (ht : D a → ∀ w ∈ t.vars, D w) : (s.put a (.bound t)).Sealed D := by
  obtain ⟨_, hro, _⟩ := put_view hf ha hra (.bound t)
  refine ⟨fun x hx => ?_, fun x y hx he => ?_⟩
  · rw [hro]
    exact h.root x hx
  · rw [put_edge hf ha hra] at he
    split at he
    · rename_i hxa
      obtain ⟨u, hu, w, hw, rfl⟩ := he
      cases hu
      exact h.root w (ht (hxa ▸ h.root x hx) w hw)
    · exact h.edge x y hx he

theorem link (h : s.Sealed D) (hf : s.Forest) {b : Var} (ha : a < s.size) (hb : b < s.size)
    (hra : s.root a = a) (hrb : s.root b = b) (hab : a ≠ b) (hle : D a → D b) :
    (s.link a b).Sealed D := by
  obtain ⟨_, hro, _⟩ := link_view hf ha hb hra hrb hab
  have hmoved : ∀ x, D x → D (if x = a then b else x) := by
    intro x hx
    split
    · rename_i heq
      exact hle (heq ▸ hx)
    · exact hx
  refine ⟨fun x hx => ?_, fun x y hx he => ?_⟩
  · rw [hro]
    exact hmoved _ (h.root x hx)
  · obtain ⟨z, hz, rfl⟩ := (link_edge hf ha hb hra hrb hab).mp he
    refine hmoved z (h.edge _ z ?_ hz)
    split
    · rename_i hxa
      exact hle (hxa ▸ h.root x hx)
    · exact hx

end Sealed

theorem sealed_within (h : s.Forest) : s.Sealed (s.Within Q k) :=
  ⟨fun _ hv => (within_root h).mpr hv, fun _ _ hx he => hx.edge h he⟩

theorem sealed_apart (h : s.Forest) : s.Sealed (s.Apart Q) :=
  ⟨fun _ hv => (apart_root h).mpr hv, fun _ _ hx he q hq hr => hx q hq (.of_edge h he hr)⟩

theorem Apart.not_mem (h : s.Apart Q a) (ha : s.root a = a) : ¬ Q a :=
  fun hq => h a hq (by rw [Reaches, ha])

theorem Sealed.apart (h : s'.Sealed (s.Apart Q)) (hQ : ∀ q, Q q → s.root q = q) (hv : s.Apart Q v) :
    s'.Apart Q v := fun q hq hr =>
  h.reaches hv hr q hq (by rw [Reaches, hQ q hq])

theorem Alike.within (h : Alike s s') (hcon : ∀ v, s'.content v = s.content v) :
    s'.Within Q k v ↔ s.Within Q k v := by
  simp only [Within, h.reaches, rank?, hcon]

theorem Alike.apart (h : Alike s s') : s'.Apart Q v ↔ s.Apart Q v := by
  simp only [Apart, h.reaches]

theorem within_fresh (h : s.Formed) (rank : Rank) (hint : Option String) (hlt : v < s.size)
    (hv : s.Within Q k v) : (s.fresh rank hint).2.Within Q k v := by
  obtain ⟨hf, hro, hcon⟩ := fresh_view h.forest rank hint
  have hold : ∀ x, x < s.size → (s.fresh rank hint).2.content x = s.content x := fun x hx => by
    rw [hcon, if_neg (Nat.ne_of_lt hx)]
  refine Sealed.within (D := fun v => v < s.size ∧ s.Within Q k v) ⟨fun x hx => ?_,
    fun x y hx he => ?_⟩ hf (fun r j hr hroot hj => ?_) ⟨hlt, hv⟩
  · rw [hro, within_root h.forest]
    exact ⟨h.forest.root_lt hx.1, hx.2⟩
  · obtain ⟨t, hk, w, hw, rfl⟩ := he
    rw [kind_eq_bound, hold x hx.1] at hk
    have he : s.Edge x (s.root w) := ⟨t, kind_eq_bound.mpr hk, w, hw, rfl⟩
    rw [hro]
    exact ⟨he.lt h, hx.2.edge h.forest he⟩
  · rw [rank?, hold r hr.1] at hj
    rw [hro] at hroot
    exact hr.2 r j (by rw [Reaches, hroot]) hj

theorem exists_rank?_of_lowered (h : s.Formed) (ht : t.Fits s.size) {rank : Rank} {r : Var} {j : Rank}
    (hj : (s.lowerRanks (s.reach t) rank).rank? r = some j) :
    ∃ j0, s.rank? r = some j0 ∧ j ≤ j0 ∧ (s.root r ∈ s.reach t → j ≤ rank) := by
  obtain ⟨_, hal⟩ := lowerRanks_reach h t rank
  have hfree : s.kind r = .free := by rw [← hal.kind]; exact kind_eq_free_iff_rank?.mpr ⟨j, hj⟩
  obtain ⟨j0, hj0⟩ := kind_eq_free_iff_rank?.mp hfree
  obtain ⟨j1, hj1, hle⟩ := rank?_lowerRanks h ht rank hj0
  cases hj.symm.trans hj1
  exact ⟨j0, hj0, hle⟩

theorem within_lowerRanks (h : s.Formed) (ht : t.Fits s.size) (rank : Rank) (hv : s.Within Q k v) :
    (s.lowerRanks (s.reach t) rank).Within Q k v := by
  obtain ⟨_, hal⟩ := lowerRanks_reach h t rank
  intro r j hr hj
  rw [hal.reaches] at hr
  obtain ⟨j0, hj0, hle, _⟩ := exists_rank?_of_lowered h ht hj
  exact (hv r j0 hr hj0).imp_right fun hle' => hle.trans hle'

theorem within_lowered (h : s.Formed) (ht : t.Fits s.size) (rank : Rank) {w : Var}
    (hw : w ∈ t.vars) : (s.lowerRanks (s.reach t) rank).Within Q rank w := by
  obtain ⟨_, hal⟩ := lowerRanks_reach h t rank
  intro r j hr hj
  rw [hal.reaches] at hr
  obtain ⟨_, _, _, hle⟩ := exists_rank?_of_lowered h ht hj
  exact .inr (hle (by rw [hr.root_eq h.forest]; exact (mem_reach h ht).mpr ⟨w, hw, hr⟩))

theorem rank?_spared (h : s.Formed) (ht : t.Fits s.size) (rank : Rank) (hra : s.root a = a)
    (hn : a ∉ s.reach t) (hj : s.rank? a = some j) :
    (s.lowerRanks (s.reach t) rank).rank? a = some j := by
  rw [rank?, lowerRanks_content h.forest rank (reach_lt h ht), if_neg, ← rank?, hj]
  rintro ⟨x, hx, hroot⟩
  obtain ⟨w, hw, hr⟩ := (mem_reach h ht).mp hx
  rw [hr.root_eq h.forest, hra] at hroot
  exact hn (hroot ▸ hx)

theorem within_put (h : s.Formed) (ha : a < s.size) (hra : s.root a = a)
    (ht : s.Within Q k a → ∀ w ∈ t.vars, s.Within Q k w) (hv : s.Within Q k v) :
    (s.put a (.bound t)).Within Q k v := by
  obtain ⟨hf, hro, hcon⟩ := put_view h.forest ha hra (.bound t)
  refine ((sealed_within h.forest).put h.forest ha hra ht).within hf (fun r j hr hroot hj => ?_) hv
  rw [hro] at hroot
  have hra' : s.root r ≠ a := by
    intro heq
    rw [rank?, hcon, if_pos heq] at hj
    cases hj
  rw [rank?, hcon, if_neg hra'] at hj
  exact hr r j (by rw [Reaches, hroot]) hj

section Link

variable {a b : Var} (h : s.Forest) (ha : a < s.size) (hb : b < s.size) (hra : s.root a = a)
  (hrb : s.root b = b) (hab : a ≠ b)

include h ha hb hra hrb hab

theorem within_link (hle : s.Within Q k a → s.Within Q k b) (hv : s.Within Q k v) :
    (s.link a b).Within Q k v := by
  obtain ⟨hf, hro, hcon⟩ := link_view h ha hb hra hrb hab
  refine ((sealed_within h).link h ha hb hra hrb hab hle).within hf (fun r j hr hroot hj => ?_) hv
  rw [hro] at hroot
  have hra' : s.root r ≠ a := by
    intro heq
    rw [if_pos heq] at hroot
    rw [← hroot, hrb] at heq
    exact hab heq.symm
  rw [if_neg hra'] at hroot
  rw [rank?, hcon, if_neg hra'] at hj
  exact hr r j (by rw [Reaches, hroot]) hj

theorem within_merge {rankA rankB : Rank} {hint : Option String} (hka : s.rank? a = some rankA)
    (hkb : s.rank? b = some rankB) (hqa : ¬ Q a) (hqb : ¬ Q b) (hv : s.Within Q k v) :
    ((s.link a b).put b (.unbound (min rankA rankB) hint)).Within Q k v := by
  obtain ⟨hf, hro, hcon⟩ := link_view h ha hb hra hrb hab
  have hb' : b < (s.link a b).size := by rw [link_size]; exact hb
  have hrb' : (s.link a b).root b = b := by rw [hro, hrb, if_neg hab.symm]
  obtain ⟨hf', hro', hcon'⟩ := put_view hf hb' hrb' (.unbound (min rankA rankB) hint)
  have hD : ∀ x, s.Within Q k x → s.root x = a ∨ s.root x = b → min rankA rankB ≤ k := by
    rintro x hx (hxa | hxb)
    · have hle := ((within_root h).mpr hx).rank_le h (v := s.root x) (j := rankA)
        (by rw [hxa, hka]) (by rwa [hxa, hra])
      exact (Nat.min_le_left ..).trans hle
    · have hle := ((within_root h).mpr hx).rank_le h (v := s.root x) (j := rankB)
        (by rw [hxb, hkb]) (by rwa [hxb, hrb])
      exact (Nat.min_le_right ..).trans hle
  refine Sealed.within (D := fun x => s.Within Q k x ∨ s.root x = b ∧ min rankA rankB ≤ k)
    ⟨fun x hx => ?_, fun x y hx he => ?_⟩ hf' (fun r j hr hroot hj => ?_) (.inl hv)
  · rw [hro', hro]
    split
    · rename_i hxa
      refine .inr ⟨hrb, ?_⟩
      rcases hx with hx | ⟨_, hle⟩
      · exact hD x hx (.inl hxa)
      · exact hle
    · rw [h.root_root, within_root h]
      exact hx
  · -- neither class has edges
    rw [put_edge hf hb' hrb'] at he
    split at he
    · obtain ⟨t, ht, _⟩ := he
      cases ht
    · rename_i hne
      rw [hro] at hne
      have hxa : s.root x ≠ a := fun hxa => hne (if_pos hxa)
      rw [if_neg hxa] at hne
      rcases hx with hx | ⟨hxb, _⟩
      · obtain ⟨z, hz, rfl⟩ := (link_edge h ha hb hra hrb hab).mp he
        rw [if_neg hxa] at hz
        have hzw := hx.edge h hz
        split
        · rename_i hza
          exact .inr ⟨hrb, hD z hzw (.inl (by rw [hza, hra]))⟩
        · exact .inl hzw
      · exact absurd hxb hne
  · rw [hro', hro] at hroot
    have hra' : s.root r ≠ a := by
      intro heq
      rw [if_pos heq] at hroot
      rw [← hroot, hrb] at heq
      exact hab heq.symm
    rw [if_neg hra'] at hroot
    rw [rank?, hcon', hro, if_neg hra'] at hj
    by_cases hrb'' : s.root r = b
    · rw [if_pos hrb''] at hj
      cases hj
      rcases hr with hr | ⟨_, hle⟩
      · exact .inr (hD r hr (.inr hrb''))
      · exact .inr hle
    · rw [if_neg hrb'', hcon, if_neg hra'] at hj
      exact (hr.resolve_right fun hr => hrb'' hr.1) r j (by rw [Reaches, hroot]) hj

end Link

/-! ## The tight guard -/

/-- Where a bound class goes under another, it leads to all unbound classes that the other leads to;
and where the rest of two records is not compared, the first leads to all unbound classes that the
second leads to. -/
def Guard.tight : Guard where
  join s a b := ∀ x, s.kind x = .free → s.Reaches b x → s.Reaches a x
  skip s l r := ∀ x, s.kind x = .free → (∃ w ∈ r.vars, s.Reaches w x) → ∃ v ∈ l.vars, s.Reaches v x

theorem Runs.tight {n : Nat} {o : Outcome} (h : Runs .any n c s o) (hs : s.FirstOrder)
    (hc : c.FirstOrder s.aliases) (hfit : c.Fits s.size) : Runs .tight n c s o := by
  refine (h.faithful hs hc hfit).exact.relax (fun s a b hjoin x hx hr => ?_) fun _ _ _ => False.elim
  obtain ⟨hs, _, ⟨ha, hb⟩, heq⟩ := hjoin
  obtain ⟨θ, hθ⟩ := hs.grounded.exists_reading hs.toFormed hs.usable
  have hmen := (hs.mentions_iff hθ hb).mpr ⟨hr, hx⟩
  rw [← heq θ hθ.toSolvedBy] at hmen
  exact ((hs.mentions_iff hθ ha).mp hmen).1

theorem within_of_tight {b : Var} (h : Guard.tight.join s a b) (ha : s.Within Q k a) :
    s.Within Q k b := fun r j hr hj =>
  ha r j (h r (kind_eq_free_iff_rank?.mpr ⟨j, hj⟩) hr) hj

/-- What a call may be about so that it leaves the roots in `Q` alone; if `low`, also so that the
variables that it makes are within rank `k`. -/
structure Admissible (s : Store) (Q : Var → Prop) (low : Prop) (k : Rank) (v : Var) : Prop where
  lt : v < s.size
  apart : s.Apart Q v
  within : low → s.Within Q k v

variable {low : Prop}

theorem Admissible.root (h : s.Forest) (hv : s.Admissible Q low k v) :
    s.Admissible Q low k (s.root v) :=
  ⟨h.root_lt hv.lt, (apart_root h).mpr hv.apart, fun hl => (within_root h).mpr (hv.within hl)⟩

theorem Admissible.bound (h : s.Formed) (hv : s.Admissible Q low k v) (hk : s.kind v = .bound t) :
    t.Over (s.Admissible Q low k) := by
  have hfits := h.fits v t hk
  refine hfits.restrict fun w hw => ⟨hfits.lt hw, (hv.apart.bound h hk).mem hw, fun hl => ?_⟩
  exact ((hv.within hl).bound h hk).mem hw

theorem Admissible.rank_le (h : s.Forest) (hv : s.Admissible Q low k v) (hj : s.rank? v = some j)
    (hl : low) : j ≤ k :=
  (hv.within hl).rank_le h hj fun hq => hv.apart _ hq .refl

/-- From `s` to `s'` no class came to lead deeper than rank `k`, nor does a new one if `low`; the
roots in `Q` were left alone. -/
structure Sinking (Q : Var → Prop) (low : Prop) (k : Rank) (s s' : Store) : Prop where
  size_le : s.size ≤ s'.size
  pinned : ∀ q, Q q → q < s'.size ∧ s'.root q = q
  apart : ∀ v, s.Apart Q v → s'.Apart Q v
  within : ∀ v, v < s.size → s.Within Q k v → s'.Within Q k v
  new : low → ∀ v, s.size ≤ v → v < s'.size → s'.Within Q k v

namespace Sinking

theorem refl (hQ : ∀ q, Q q → q < s.size ∧ s.root q = q) : Sinking Q low k s s :=
  ⟨le_rfl, hQ, fun _ h => h, fun _ _ h => h, fun _ _ hv hv' => absurd hv' (Nat.not_lt.mpr hv)⟩

theorem trans (h : Sinking Q low k s s') (h' : Sinking Q low k s' s'') : Sinking Q low k s s'' := by
  refine ⟨h.size_le.trans h'.size_le, h'.pinned, fun v hv => h'.apart v (h.apart v hv),
    fun v hlt hv => h'.within v (hlt.trans_le h.size_le) (h.within v hlt hv),
    fun hl v hv hv' => ?_⟩
  rcases Nat.lt_or_ge v s'.size with hlt | hge
  · exact h'.within v hlt (h.new hl v hv hlt)
  · exact h'.new hl v hge hv'

theorem alike (h : Alike s s') (hcon : ∀ v, s'.content v = s.content v)
    (hQ : ∀ q, Q q → q < s.size ∧ s.root q = q) : Sinking Q low k s s' :=
  ⟨Nat.le_of_eq h.size.symm, fun q hq => by rw [h.size, h.root]; exact hQ q hq,
    fun _ hv => h.apart.mpr hv, fun _ _ hv => (h.within hcon).mpr hv,
    fun _ _ hv hv' => absurd (h.size ▸ hv') (Nat.not_lt.mpr hv)⟩

theorem admissible (h : Sinking Q low k s s') (hv : s.Admissible Q low k v) :
    s'.Admissible Q low k v :=
  ⟨hv.lt.trans_le h.size_le, h.apart v hv.apart, fun hl => h.within v hv.lt (hv.within hl)⟩

theorem of_size (hQ : ∀ q, Q q → q < s.size ∧ s.root q = q) (hsize : s'.size = s.size)
    (hroot : ∀ q, Q q → s'.root q = q) (hapart : ∀ v, s.Apart Q v → s'.Apart Q v)
    (hwithin : ∀ v, s.Within Q k v → s'.Within Q k v) : Sinking Q low k s s' :=
  ⟨hsize.ge, fun q hq => ⟨by rw [hsize]; exact (hQ q hq).1, hroot q hq⟩, hapart,
    fun v _ => hwithin v, fun _ _ hv hv' => absurd (hsize ▸ hv') (Nat.not_lt.mpr hv)⟩

section Writes

variable (hs : s.Formed) (hQ : ∀ q, Q q → q < s.size ∧ s.root q = q)

include hs hQ

theorem lower (ht : t.Fits s.size) (rank : Rank) :
    Sinking Q low k s (s.lowerRanks (s.reach t) rank) := by
  obtain ⟨_, hal⟩ := lowerRanks_reach hs t rank
  exact .of_size hQ hal.size (fun q hq => (hal.root q).trans (hQ q hq).2)
    (fun _ hv => hal.apart.mpr hv) fun _ hv => within_lowerRanks hs ht rank hv

variable {rank : Rank} {hint : Option String}

theorem bind (ha : a < s.size) (hra : s.root a = a) (hqa : s.Apart Q a) (ht : t.Fits s.size)
    (hqt : ∀ w ∈ t.vars, s.Apart Q w) (hca : s.content a = .unbound rank hint)
    (hn : a ∉ s.reach t) :
    Sinking Q low k s ((s.lowerRanks (s.reach t) rank).put a (.bound t)) := by
  have hlower : Sinking Q low k s (s.lowerRanks (s.reach t) rank) := lower hs hQ ht rank
  obtain ⟨hf, hal⟩ := lowerRanks_reach hs t rank
  have ha' := hal.size ▸ ha
  have hra' := (hal.root a).trans hra
  have hpinned : ∀ q, Q q → (s.lowerRanks (s.reach t) rank).root q = q := fun q hq =>
    (hlower.pinned q hq).2
  refine hlower.trans (.of_size hlower.pinned (put_size ..) (fun q hq => ?_) (fun v hv => ?_)
    fun v hv => within_put (hal.formed hf hs) ha' hra' (fun hwa w hw => ?_) hv)
  · rw [(put_view hf ha' hra' _).2.1, hpinned q hq]
  · exact ((sealed_apart hf).put hf ha' hra' fun _ w hw => hlower.apart w (hqt w hw)).apart hpinned hv
  · refine (within_lowered hs ht rank hw).mono (hwa.rank_le hf (rank?_spared hs ht rank hra hn ?_) ?_)
    · exact rank?_eq_some.mpr ⟨hint, hca⟩
    · exact hra'.symm ▸ hqa.not_mem hra

variable {a b : Var} (ha : a < s.size) (hb : b < s.size) (hra : s.root a = a) (hrb : s.root b = b)
  (hab : a ≠ b) (hqa : s.Apart Q a) (hqb : s.Apart Q b)

include ha hb hra hrb hab hqa hqb

omit hqb in
theorem root_linked {q : Var} (hq : Q q) : (s.link a b).root q = q := by
  rw [(link_view hs.forest ha hb hra hrb hab).2.1, (hQ q hq).2, if_neg]
  rintro rfl
  exact hqa.not_mem hra hq

omit hqa in
theorem apart_linked (hv : s.Apart Q v) : (s.link a b).Apart Q v :=
  ((sealed_apart hs.forest).link hs.forest ha hb hra hrb hab fun _ => hqb).apart
    (fun q hq => (hQ q hq).2) hv

theorem link (hle : s.Within Q k a → s.Within Q k b) : Sinking Q low k s (s.link a b) :=
  .of_size hQ (link_size ..) (fun _ => root_linked hs hQ ha hb hra hrb hab hqa)
    (fun _ => apart_linked hs hQ ha hb hra hrb hab hqb)
    fun _ => within_link hs.forest ha hb hra hrb hab hle

theorem merge {rankA rankB : Rank} {hintA hintB : Option String}
    (hca : s.content a = .unbound rankA hintA) (hcb : s.content b = .unbound rankB hintB)
    (hint : Option String) :
    Sinking Q low k s ((s.link a b).put b (.unbound (min rankA rankB) hint)) := by
  obtain ⟨_, hal⟩ := merge_alike hs.forest ha hb hra hrb hab (kind_eq_free.mpr ⟨_, _, hcb⟩)
    (min rankA rankB) hint
  refine .of_size hQ (hal.size.trans (link_size ..)) (fun q hq => ?_) (fun v hv => ?_) fun v hv => ?_
  · rw [hal.root]
    exact root_linked hs hQ ha hb hra hrb hab hqa hq
  · exact hal.apart.mpr (apart_linked hs hQ ha hb hra hrb hab hqb hv)
  · exact within_merge hs.forest ha hb hra hrb hab (rank?_eq_some.mpr ⟨_, hca⟩)
      (rank?_eq_some.mpr ⟨_, hcb⟩) (hqa.not_mem hra) (hqb.not_mem hrb) hv

theorem adopt (hca : s.content a = .unbound rank hint) (hcb : s.content b = .bound t)
    (hn : a ∉ s.reach t) : Sinking Q low k s ((s.lowerRanks (s.reach t) rank).link a b) := by
  have ht := hs.fits b t (kind_eq_bound.mpr hcb)
  have hlower : Sinking Q low k s (s.lowerRanks (s.reach t) rank) := lower hs hQ ht rank
  obtain ⟨hf, hal⟩ := lowerRanks_reach hs t rank
  have hroot : ∀ {x}, s.root x = x → (s.lowerRanks (s.reach t) rank).root x = x :=
    fun hx => (hal.root _).trans hx
  refine hlower.trans (link (hal.formed hf hs) hlower.pinned (hal.size ▸ ha) (hal.size ▸ hb)
    (hroot hra) (hroot hrb) hab (hlower.apart a hqa) (hlower.apart b hqb) fun hwa => ?_)
  refine within_of_bound hf (t := t) (by rw [hal.kind, kind_eq_bound, hcb]) fun w hw => ?_
  refine (within_lowered hs ht rank hw).mono (hwa.rank_le hf (rank?_spared hs ht rank hra hn ?_) ?_)
  · exact rank?_eq_some.mpr ⟨hint, hca⟩
  · exact (hroot hra).symm ▸ hqa.not_mem hra

end Writes

end Sinking

theorem Call.Over.mono {V W : Var → Prop} (h : c.Over V) (hVW : ∀ v, V v → W v) : c.Over W := by
  cases c with
  | types => exact ⟨h.1.mono hVW, h.2.mono hVW⟩
  | vars => exact ⟨hVW _ h.1, hVW _ h.2⟩
  | var => exact ⟨hVW _ h.1, h.2.mono hVW⟩
  | terms => exact ⟨h.1.mono hVW, h.2.mono hVW⟩
  | rows => exact ⟨h.1.mono hVW, h.2.1.mono hVW, h.2.2.1.mono hVW, h.2.2.2.mono hVW⟩
  | tails => exact ⟨hVW _ h.1, hVW _ h.2.1, h.2.2.1.mono hVW, h.2.2.2.mono hVW⟩

theorem sinking_fresh (h : s.Formed) {rank : Rank} (hQ : ∀ q, Q q → q < s.size ∧ s.root q = q)
    (hrank : low → rank ≤ k) : Sinking Q low k s (s.fresh rank none).2 := by
  obtain ⟨hf, hro, hcon⟩ := fresh_view h.forest rank none
  refine ⟨by rw [fresh_size]; exact Nat.le_succ _, fun q hq => ?_, fun v hv q hq => ?_,
    fun v hlt hv => within_fresh h rank none hlt hv, fun hl v hv hv' => ?_⟩
  · rw [fresh_size, hro]
    exact ⟨Nat.lt_succ_of_lt (hQ q hq).1, (hQ q hq).2⟩
  · exact (Spares.fresh h (hQ q hq).2 (hQ q hq).1 rank none).apart v (hv q hq)
  · rw [fresh_size] at hv'
    obtain rfl := Nat.le_antisymm (Nat.le_of_lt_succ hv') hv
    exact within_of_rank? hf (rank?_eq_some.mpr ⟨none, by rw [hcon, if_pos rfl]⟩) (hrank hl)

def Call.MakesBy (k : Rank) : Call → Prop
  | .tails _ _ rank _ _ => rank ≤ k
  | _ => True

theorem Poses.makesBy {c' : Call} (h : Poses s c c') (hs : s.Forest)
    (hc : c.Over (s.Admissible Q low k)) (hl : low) : c'.MakesBy k := by
  cases h with
  | tail h =>
    cases h with
    | openBoth _ hv hw hrank =>
      have hv := hc.1.mem (mem_rowType hv)
      have hw := hc.2.1.mem (mem_rowType hw)
      rw [tailRank] at hrank
      split at hrank
      · cases hrank
      · rename_i hi _
        cases hrank
        exact hv.rank_le hs hi hl
      · rename_i _ hj
        cases hrank
        exact hw.rank_le hs hj hl
      · rename_i hi _
        cases hrank
        exact (Nat.min_le_left ..).trans (hv.rank_le hs hi hl)
    | _ => trivial
  | @bound side => cases side <;> trivial
  | _ => trivial

theorem within_of_poisoned (hx : s.root x = x) (h : s.content x = .poisoned) : s.Within Q k x := by
  intro r j hr hj
  have hk : s.kind (s.root x) = .poisoned := by rw [hx, kind_eq_poisoned, h]
  rw [hr.eq_root (by simp [hk]), hx, rank?, h] at hj
  cases hj

theorem sinking_tracker (R : Call → Store → Outcome → Prop) :
    Tracker .tight R (fun (_ : Unit) c s => s.WellFormed ∧ (∀ q, Q q → q < s.size ∧ s.root q = q) ∧
      c.Over (s.Admissible Q low k) ∧ (low → c.MakesBy k))
      fun _ s o => ∀ s', o = .unified s' → Steps .tight false s s' ∧ Sinking Q low k s s' where
  forest hc := hc.1.forest
  lt hc := hc.2.2.1.1.lt
  lt' hc := hc.2.2.1.1.lt
  poses hc h := ⟨hc.1, hc.2.1, h.over hc.1.usable (fun _ hv => hv.root hc.1.forest)
    (fun _ _ hv hk => hv.bound hc.1.toFormed hk) hc.2.2.1, h.makesBy hc.1.forest hc.2.2.1⟩
  next {_ s s'} h := by
    obtain ⟨hsteps, hsinking⟩ := h s' rfl
    refine ⟨(), fun c hc => ⟨hsteps.wellFormed hc.1, hsinking.pinned,
      hc.2.2.1.mono fun _ => hsinking.admissible, hc.2.2.2⟩, fun o ho s'' hs'' => ?_⟩
    obtain ⟨hsteps', hsinking'⟩ := ho s'' hs''
    exact ⟨hsteps.trans hsteps', hsinking.trans hsinking'⟩
  refl hc := by
    rintro _ ⟨⟩
    exact ⟨.refl, .refl hc.2.1⟩
  found hc hv h := by
    rintro _ ⟨⟩
    obtain ⟨-, hf, hal, hcon⟩ := find_spec hc.1.forest hv h
    exact ⟨.single (.alike hf hal), .alike hal hcon hc.2.1⟩
  mismatch _ := nofun
  poison _ _ _ := nofun
  rest {_ v w rank onlyLeft onlyRight s} hc := by
    obtain ⟨hs, hQ, ⟨hv, hw, hleft, hright⟩, hmakes⟩ := hc
    have hsteps : Steps .tight false s (s.fresh rank none).2 := .single (.fresh rank none)
    have hfresh := sinking_fresh hs.toFormed hQ hmakes
    have hlt : s.size < (s.fresh rank none).2.size := by
      rw [fresh_size]
      exact Nat.lt_succ_self _
    have hrest : ∀ x, some s.size = some x → (s.fresh rank none).2.Admissible Q low k x := by
      rintro x ⟨⟩
      exact ⟨hlt, fun q hq => Spares.not_reaches_fresh hs.forest (hQ q hq).1 rank none,
        fun hl => hfresh.new hl _ le_rfl hlt⟩
    refine ⟨(), ⟨hsteps.wellFormed hs, hfresh.pinned, ⟨hfresh.admissible hv,
      record_over_ext (hright.mono fun _ => hfresh.admissible) hrest⟩, fun _ => trivial⟩,
      ⟨hsteps.wellFormed hs, hfresh.pinned, ⟨hfresh.admissible hw,
      record_over_ext (hleft.mono fun _ => hfresh.admissible) hrest⟩, fun _ => trivial⟩,
      fun o ho s' hs' => ?_⟩
    obtain ⟨hsteps', hsinking⟩ := ho s' hs'
    exact ⟨hsteps.trans hsteps', hfresh.trans hsinking⟩
  under hc hra hrb hab hcb := by
    rintro _ ⟨⟩
    obtain ⟨hs, hQ, ⟨ha, hb⟩, -⟩ := hc
    exact ⟨(after_tracker .tight R).under (x := ()) ⟨hs, ha.lt, hb.lt⟩ hra hrb hab hcb,
      .link hs.toFormed hQ ha.lt hb.lt hra hrb hab ha.apart hb.apart
        fun _ => within_of_poisoned hrb hcb⟩
  merge hc hra hrb hab hca hcb := by
    rintro _ ⟨⟩
    obtain ⟨hs, hQ, ⟨ha, hb⟩, -⟩ := hc
    exact ⟨(after_tracker .tight R).merge (x := ()) ⟨hs, ha.lt, hb.lt⟩ hra hrb hab hca hcb,
      .merge hs.toFormed hQ ha.lt hb.lt hra hrb hab ha.apart hb.apart hca hcb _⟩
  adopt hc hra hrb hab hca hcb hn := by
    rintro _ ⟨⟩
    obtain ⟨hs, hQ, ⟨ha, hb⟩, -⟩ := hc
    exact ⟨steps_adopt hs ha.lt hb.lt hra hrb hab (kind_eq_bound.mpr hcb) hn _,
      .adopt hs.toFormed hQ ha.lt hb.lt hra hrb hab ha.apart hb.apart hca hcb hn⟩
  bind hc hra hca hn := by
    rintro _ ⟨⟩
    obtain ⟨hs, hQ, ⟨ha, ht⟩, -⟩ := hc
    have hfits := ht.mono fun _ hv => hv.lt
    exact ⟨steps_bind hs ha.lt hfits hra (kind_eq_free.mpr ⟨_, _, hca⟩) hn _,
      .bind hs.toFormed hQ ha.lt hra ha.apart hfits (fun w hw => (ht.mem hw).apart) hca hn⟩
  join {_ a b s l r s1 s2} hc _ _ _ h _ _ hne hguard := by
    rintro _ ⟨⟩
    obtain ⟨hs, -, ⟨ha, hb⟩, -⟩ := hc
    obtain ⟨hsteps, hsinking⟩ := h s2 rfl
    have hs2 := hsteps.wellFormed hs
    have ha' := (hsinking.admissible ha).root hs2.forest
    have hb' := (hsinking.admissible hb).root hs2.forest
    have hra := hs2.forest.root_root a
    have hrb := hs2.forest.root_root b
    exact ⟨hsteps.tail (.link ha'.lt hb'.lt hra hrb hne (.inr hguard)), hsinking.trans
      (.link hs2.toFormed hsinking.pinned ha'.lt hb'.lt hra hrb hne ha'.apart hb'.apart
        (within_of_tight hguard))⟩

theorem Runs.sinking {n : Nat} (h : Runs .tight n c s (.unified s')) (hs : s.WellFormed)
    (hQ : ∀ q, Q q → q < s.size ∧ s.root q = q) (hc : c.Over (s.Admissible Q low k))
    (hmakes : low → c.MakesBy k) : Sinking Q low k s s' :=
  (h.tracked (fun _ => sinking_tracker _) (x := ()) ⟨hs, hQ, hc, hmakes⟩ s' rfl).2

namespace Runs

variable {n : Nat} {l r : Ty} {v : Var}

theorem within (h : Runs .tight n (.types l r) s (.unified s')) (hs : s.WellFormed)
    (hfit : (Call.types l r).Fits s.size) (hQ : ∀ q, Q q → q < s.size ∧ s.root q = q)
    (hapart : ∀ v, v ∈ l.vars ∨ v ∈ r.vars → s.Apart Q v) (hv : v < s.size)
    (hw : s.Within Q k v) : s'.Within Q k v := by
  have hc : (Call.types l r).Over (s.Admissible Q False k) :=
    ⟨hfit.1.restrict fun v hv => ⟨hfit.1.lt hv, hapart v (.inl hv), fun hl => hl.elim⟩,
      hfit.2.restrict fun v hv => ⟨hfit.2.lt hv, hapart v (.inr hv), fun hl => hl.elim⟩⟩
  exact (h.sinking hs hQ hc fun hl => hl.elim).within v hv hw

theorem within_new (h : Runs .tight n (.types l r) s (.unified s')) (hs : s.WellFormed)
    (hfit : (Call.types l r).Fits s.size)
    (hwithin : ∀ v, v ∈ l.vars ∨ v ∈ r.vars → s.Within (fun _ => False) k v) (hv : s.size ≤ v)
    (hlt : v < s'.size) : s'.Within (fun _ => False) k v := by
  have hc : (Call.types l r).Over (s.Admissible (fun _ => False) True k) :=
    ⟨hfit.1.restrict fun v hv => ⟨hfit.1.lt hv, fun _ hq => hq.elim, fun _ => hwithin v (.inl hv)⟩,
      hfit.2.restrict fun v hv => ⟨hfit.2.lt hv, fun _ hq => hq.elim, fun _ => hwithin v (.inr hv)⟩⟩
  exact (h.sinking hs (fun _ hq => hq.elim) hc fun _ => trivial).new trivial v hv hlt

theorem within_kept (h : Runs .tight n c s (.unified s')) (hs : s.WellFormed) (hfit : c.Fits s.size)
    (hv : v < s.size) (hw : s.Within (fun _ => False) k v) : s'.Within (fun _ => False) k v := by
  have hover : c.Over (· < s.size) := by cases c <;> exact hfit
  have hc : c.Over (s.Admissible (fun _ => False) False k) :=
    hover.mono fun _ hlt => ⟨hlt, fun _ hq => hq.elim, fun hl => hl.elim⟩
  exact (h.sinking hs (fun _ hq => hq.elim) hc fun hl => hl.elim).within v hv hw

end Runs
end Store
end TypeSolver
