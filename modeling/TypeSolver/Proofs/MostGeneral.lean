import TypeSolver.Proofs.FirstOrder

/-!
# TypeSolver.Proofs.MostGeneral

Unification of first-order types ends, and finds a most general unifier.

It ends by a double descent. A call on two types makes calls on their parts, which have smaller
meanings; between two of these the store may have changed, but then it has fewer unbound classes,
and otherwise all meanings are what they were (`FirstOrder.after`).

As a store is a system of equations, the new store has for solutions those of the old store that
unify the two types. Its reading is one of them, and all others come from it by substitution.
-/

namespace TypeSolver
namespace Store

variable {s s' : Store} {θ : Valuation}

/-! ## Unbound classes -/

open Classical in
noncomputable def openRoots (s : Store) : Finset Var :=
  (Finset.range s.size).filter fun r => s.root r = r ∧ s.kind r = .free

theorem mem_openRoots {r : Var} : r ∈ s.openRoots ↔ s.root r = r ∧ s.kind r = .free := by
  simp only [openRoots, Finset.mem_filter, Finset.mem_range, and_iff_right_iff_imp]
  exact fun h => lt_of_kind (by rw [h.2]; simp)

theorem Step.openRoots_subset {g : Guard} (h : Step g false s s') (hs : s.Formed)
    (hsize : s'.size = s.size) : s'.openRoots ⊆ s.openRoots := by
  intro r hr
  rw [mem_openRoots] at hr ⊢
  cases h with
  | alike _ ha => rwa [ha.root, ha.kind] at hr
  | fresh => rw [fresh_size] at hsize; exact absurd hsize (Nat.succ_ne_self _)
  | bind hlt hroot _ _ _ =>
    obtain ⟨_, hro, hc⟩ := put_view hs.forest hlt hroot (.bound _)
    rw [hro, kind, hc] at hr
    split at hr
    · cases hr.2
    · exact hr
  | link ha hb hra hrb hab _ =>
    obtain ⟨_, hro, _⟩ := link_view hs.forest ha hb hra hrb hab
    rw [hro, link_kind hs.forest ha hb hra hrb hab] at hr
    split at hr
    · rename_i hra'
      rw [← hr.1, hrb] at hra'
      exact absurd hra'.symm hab
    · exact hr
  | poison hp => cases hp

theorem Steps.openRoots_subset {g : Guard} (h : Steps g false s s') (hs : s.WellFormed)
    (hsize : s'.size = s.size) : s'.openRoots ⊆ s.openRoots := by
  induction h with
  | refl => exact fun r hr => hr
  | @tail s1 s' hsteps hstep ih =>
    have hs1 := Steps.wellFormed hsteps hs
    have hle := Steps.size_le hsteps hs
    have hle' := hstep.size_le hs1.toFormed
    have hsize1 : s1.size = s.size := by omega
    exact fun r hr => ih hsize1 (hstep.openRoots_subset hs1.toFormed (hsize.trans hsize1.symm) hr)

theorem Reading.eq_of_openRoots {θ' : Valuation} (hθ : s.Reading θ) (hθ' : s'.Reading θ')
    (hs : s.Intact) (hsolved : s.SolvedBy θ') (hopen : s'.openRoots = s.openRoots) :
    ∀ v, v < s.size → θ' v = θ v := by
  refine hθ.toSolvedBy.eq_of_free hsolved hs.grounded hs.toFormed hs.usable fun v hk => ?_
  have hroot : s.root v ∈ s.openRoots :=
    mem_openRoots.mpr ⟨hs.forest.root_root v, by rw [kind_root hs.forest]; exact hk⟩
  rw [← hopen] at hroot
  obtain ⟨hr, hk'⟩ := mem_openRoots.mp hroot
  rw [hθ.free v hk, ← hsolved.root v, hθ'.free _ hk', hr]

/-! ## Calls that come to an end -/

def Stops (c : Call) (s : Store) : Prop := ∃ o, Completes c s o ∧ o ≠ .outOfFuel

variable {c : Call} {o : Outcome} {l r t : Ty}

theorem Stops.of_rule (h : Rule .any Completes c s o) (ho : o ≠ .outOfFuel) :
    Stops c s := ⟨o, .of_rule h, ho⟩

theorem Completes.runs (h : Completes c s o) (ho : o ≠ .outOfFuel) : ∃ n, Runs .any n c s o := by
  obtain ⟨n, hn⟩ := h.exists_fuel
  exact ⟨n, runs_of_ran ⟨hn, ho⟩⟩

theorem Completes.eq_of_run {o' : Outcome} {n : Nat} (h : Completes c s o) (hrun : c.run n s = o')
    (ho' : o' ≠ .outOfFuel) : o = o' := by
  obtain ⟨k, hk, hk'⟩ := (EnoughFuel.and h (runs_of_ran ⟨hrun, ho'⟩).completes).exists_fuel
  exact hk.symm.trans hk'

theorem FirstOrder.after (hs : s.FirstOrder) (hc : c.FirstOrder s.aliases) (hfit : c.Fits s.size)
    (h : Completes c s (.unified s')) : s'.FirstOrder ∧ s'.size = s.size ∧ s'.aliases = s.aliases ∧
      (s'.openRoots.card < s.openRoots.card ∨ s'.openRoots.card = s.openRoots.card ∧
        ∀ θ θ', s.Reading θ → s'.Reading θ' → ∀ v, v < s.size → θ' v = θ v) := by
  obtain ⟨n, hrun⟩ := h.runs (by simp)
  have hfaithful := hrun.faithful hs hc hfit
  obtain ⟨hs', hsize, hal⟩ := hfaithful.keeps s' rfl
  refine ⟨hs', hsize, hal, ?_⟩
  have hsteps : Steps .strict false s s' := (hrun.strict hs hc hfit).after hs.toWellFormed hfit
  have hsub := hsteps.openRoots_subset hs.toWellFormed hsize
  rcases Nat.lt_or_ge s'.openRoots.card s.openRoots.card with hlt | hge
  · exact .inl hlt
  · have hopen := Finset.eq_of_subset_of_card_le hsub hge
    refine .inr ⟨by rw [hopen], fun θ θ' hθ hθ' => ?_⟩
    exact hθ.eq_of_openRoots hθ' hs.toIntact
      ((hrun.strict hs hc hfit).sound hs.toIntact hfit s' rfl hs.toIntact θ' hθ'.toSolvedBy).1 hopen

theorem Intact.exists_snapshot (hs : s.Intact) (ht : t.Fits s.size) :
    ∃ m, EnoughFuel fun k => s.snapshot k t = some m := by
  obtain ⟨θ, hθ⟩ := hs.grounded.exists_reading hs.toFormed hs.usable
  obtain ⟨m, hm⟩ := hs.usable.exists_denotes θ t
  exact ⟨_, hθ.snapshot hs.grounded hs.toFormed hs.usable ht hm⟩

theorem Intact.exists_failWith (hs : s.Intact) (hl : l.Fits s.size) (hr : r.Fits s.size)
    (mismatch : NamedType → NamedType → Mismatch) :
    ∃ k, s.failWith k l r mismatch ≠ .outOfFuel := by
  obtain ⟨ml, hml⟩ := hs.exists_snapshot hl
  obtain ⟨mr, hmr⟩ := hs.exists_snapshot hr
  obtain ⟨k, hkl, hkr⟩ := (hml.and hmr).exists_fuel
  refine ⟨k, ?_⟩
  rcases failWith_eq .refl hs.forest.linksEnd k l r mismatch with
    ⟨_, hnone | hnone⟩ | ⟨_, _, _, _, _, heq, _⟩
  · rw [hkl] at hnone; cases hnone
  · rw [hkr] at hnone; cases hnone
  · rw [heq]; simp

theorem Intact.exists_adopt (hs : s.Intact) {a : Var} (ha : a < s.size) (ht : t.Fits s.size)
    (rank : Rank) (become : Store → Store) : ∃ k, s.adopt k a rank t become ≠ .outOfFuel := by
  by_cases hmem : a ∈ s.reach t
  · obtain ⟨ma, hma⟩ := hs.exists_snapshot (Ty.over_var.mpr ha)
    obtain ⟨mt, hmt⟩ := hs.exists_snapshot ht
    obtain ⟨k, hka, hkt⟩ := (hma.and hmt).exists_fuel
    refine ⟨k, ?_⟩
    rcases adopt_of_mem hs.forest.linksEnd rank become hmem k with
      ⟨_, hnone | hnone⟩ | ⟨_, _, _, _, _, heq, _⟩
    · rw [hka] at hnone; cases hnone
    · rw [hkt] at hnone; cases hnone
    · rw [heq]; simp
  · obtain ⟨s', _, heq⟩ := adopt_of_not_mem hs.forest.linksEnd rank become hmem
    exact ⟨0, by rw [heq]; simp⟩

theorem exists_roots (hs : s.FirstOrder) {a b : Var} (ha : a < s.size) (hb : b < s.size)
    (hterms : ∀ l r, s.kind a = .bound l → s.kind b = .bound r → Stops (.terms l r) s) :
    ∃ o, RootsRule .any Completes a b s o ∧ o ≠ .outOfFuel := by
  by_cases hab : a = b
  · exact ⟨_, .same hab, by simp⟩
  cases hca : s.content a with
  | poisoned => exact absurd (kind_eq_poisoned.mpr hca) (hs.healthy a ha)
  | unbound rankA hintA =>
    cases hcb : s.content b with
    | poisoned => exact absurd (kind_eq_poisoned.mpr hcb) (hs.healthy b hb)
    | unbound rankB hintB => exact ⟨_, .merge hab hca hcb, by simp⟩
    | bound t =>
      obtain ⟨k, hk⟩ := hs.exists_adopt ha (hs.fits b t (kind_eq_bound.mpr hcb)) rankA
        fun s => s.link a b
      exact ⟨_, .adoptLeft hab hca hcb rfl hk, hk⟩
  | bound l =>
    cases hcb : s.content b with
    | poisoned => exact absurd (kind_eq_poisoned.mpr hcb) (hs.healthy b hb)
    | unbound rankB hintB =>
      obtain ⟨k, hk⟩ := hs.exists_adopt hb (hs.fits a l (kind_eq_bound.mpr hca)) rankB
        fun s => s.link b a
      exact ⟨_, .adoptRight hab hca hcb rfl hk, hk⟩
    | bound r =>
      obtain ⟨o, ho, hfuel⟩ := hterms l r (kind_eq_bound.mpr hca) (kind_eq_bound.mpr hcb)
      cases o with
      | unified s1 => exact ⟨_, .join hab hca hcb ho rfl rfl fun _ => trivial, by simp⟩
      | failed m s1 => exact ⟨_, .joinFailed hab hca hcb ho, by simp⟩
      | outOfFuel => exact absurd rfl hfuel

/-! ## The descent -/

/-- The store has `f` unbound classes, and the meanings of the two types have together at most the
size `w`. -/
structure Weighs (f w : Nat) (s : Store) (l r : Ty) : Prop where
  classes : s.openRoots.card = f
  sizes : ∃ θ ml mr, s.Reading θ ∧ Denotes s.aliases θ l ml ∧ Denotes s.aliases θ r mr ∧
    sizeOf ml + sizeOf mr ≤ w

theorem Weighs.alike {f w : Nat} (h : Weighs f w s l r) (ha : Alike s s') : Weighs f w s' l r := by
  obtain ⟨hcard, θ, ml, mr, hθ, hl, hr, hle⟩ := h
  refine ⟨?_, θ, ml, mr, ⟨ha.solvedBy.mpr hθ.toSolvedBy, fun v hk => ?_⟩, ?_, ?_, hle⟩
  · rw [← hcard]
    congr 1
    ext r
    rw [mem_openRoots, mem_openRoots, ha.root, ha.kind]
  · rw [ha.kind] at hk
    rw [ha.root]
    exact hθ.free v hk
  · rw [ha.aliases]; exact hl
  · rw [ha.aliases]; exact hr

theorem Weighs.bound {f w : Nat} {v : Var} (hk : s.kind v = .bound t) :
    (∀ {r}, Weighs f w s (.var v) r → Weighs f w s t r) ∧
      ∀ {l}, Weighs f w s l (.var v) → Weighs f w s l t := by
  constructor
  · rintro r ⟨hcard, θ, ml, mr, hθ, hl, hr, hle⟩
    rw [Denotes.var_iff.mp hl] at hle
    exact ⟨hcard, θ, _, mr, hθ, hθ.bound v t hk, hr, hle⟩
  · rintro l ⟨hcard, θ, ml, mr, hθ, hl, hr, hle⟩
    rw [Denotes.var_iff.mp hr] at hle
    exact ⟨hcard, θ, ml, _, hθ, hl, hθ.bound v t hk, hle⟩

def StopsAt (f w : Nat) : Prop := ∀ s l r, s.FirstOrder → (Call.types l r).FirstOrder s.aliases →
  (Call.types l r).Fits s.size → Weighs f w s l r → Stops (.types l r) s

theorem FirstOrder.exists_weighs (hs : s.FirstOrder) (l r : Ty) :
    ∃ w, Weighs s.openRoots.card w s l r := by
  obtain ⟨θ, hθ⟩ := hs.grounded.exists_reading hs.toFormed hs.usable
  obtain ⟨ml, hml⟩ := hs.usable.exists_denotes θ l
  obtain ⟨mr, hmr⟩ := hs.usable.exists_denotes θ r
  exact ⟨_, rfl, θ, ml, mr, hθ, hml, hmr, le_rfl⟩

section Descent

variable {f w : Nat} (hf : ∀ f', f' < f → ∀ w', StopsAt f' w')
  (hw : ∀ w', w' < w → StopsAt f w')

include hf hw

theorem exists_each (ps : List (Ty × Ty)) (hs : s.FirstOrder) (hθ : s.Reading θ)
    (hps : ∀ q ∈ ps, (Call.types q.1 q.2).FirstOrder s.aliases ∧ (Call.types q.1 q.2).Fits s.size)
    (hlight : s.openRoots.card < f ∨ s.openRoots.card = f ∧ ∀ q ∈ ps, ∀ m m',
      Denotes s.aliases θ q.1 m → Denotes s.aliases θ q.2 m' → sizeOf m + sizeOf m' < w) :
    ∃ o, Each Completes ps s o ∧ o ≠ .outOfFuel := by
  induction ps generalizing s θ with
  | nil => exact ⟨_, .nil, by simp⟩
  | cons q ps ih =>
    obtain ⟨l, r⟩ := q
    obtain ⟨hc, hfit⟩ := hps (l, r) (by simp)
    have hstop : Stops (.types l r) s := by
      rcases hlight with hlt | ⟨heq, hlight⟩
      · obtain ⟨w', hw'⟩ := hs.exists_weighs l r
        exact hf _ hlt w' s l r hs hc hfit hw'
      · obtain ⟨ml, hml⟩ := hs.usable.exists_denotes θ l
        obtain ⟨mr, hmr⟩ := hs.usable.exists_denotes θ r
        exact hw _ (hlight (l, r) (by simp) ml mr hml hmr) s l r hs hc hfit
          ⟨heq, θ, ml, mr, hθ, hml, hmr, le_rfl⟩
    obtain ⟨o, ho, hfuel⟩ := hstop
    cases o with
    | outOfFuel => exact absurd rfl hfuel
    | failed m s1 => exact ⟨_, .failed ho, by simp⟩
    | unified s1 =>
      obtain ⟨hs1, hsize, hal, hless⟩ := hs.after hc hfit ho
      obtain ⟨θ1, hθ1⟩ := hs1.grounded.exists_reading hs1.toFormed hs1.usable
      obtain ⟨o, hrest, hfuel'⟩ := ih hs1 hθ1
        (fun q hq => by rw [hal, hsize]; exact hps q (by simp [hq])) (by
          rcases hless with hlt | ⟨hcard, hsame⟩
          · refine .inl (hlt.trans_le ?_)
            rcases hlight with hlt | ⟨heq, _⟩
            · exact hlt.le
            · exact Nat.le_of_eq heq
          · rw [hcard]
            refine hlight.imp id fun ⟨heq, hlight⟩ => ⟨heq, fun q hq m m' hm hm' => ?_⟩
            obtain ⟨_, hfit1, hfit2⟩ := hps q (by simp [hq])
            rw [hal] at hm hm'
            exact hlight q (by simp [hq]) m m'
              (hm.congr hs.usable (Ty.Over.mono hfit1 fun v hv => (hsame θ θ1 hθ hθ1 v hv).symm))
              (hm'.congr hs.usable (Ty.Over.mono hfit2 fun v hv => (hsame θ θ1 hθ hθ1 v hv).symm)))
      exact ⟨o, .cons ho hrest, hfuel'⟩

theorem stops_terms (hs : s.FirstOrder) (hc : (Call.terms l r).FirstOrder s.aliases)
    (hfit : (Call.terms l r).Fits s.size) (hweigh : Weighs f w s l r) : Stops (.terms l r) s := by
  obtain ⟨⟨hl, hnl⟩, hr, hnr⟩ := hc
  obtain ⟨hcard, θ, ml, mr, hθ, hml, hmr, hle⟩ := hweigh
  have hheads : ∀ o, HeadsRule Completes l r s o → o ≠ .outOfFuel → Stops (.terms l r) s :=
    fun o h ho => .of_rule (.settled (hl.head_eq 0) (hr.head_eq 0) h) ho
  have hclash : clash l r = true → Stops (.terms l r) s := fun h => by
    obtain ⟨k, hk⟩ := hs.exists_failWith hfit.1 hfit.2 _
    exact hheads _ (.clash h rfl hk) hk
  cases hl with
  | var => cases hnl
  | @func a b ha hb =>
    cases hr with
    | var => cases hnr
    | app => exact hclash rfl
    | @func c d hc hd =>
      obtain ⟨hfa, hfb⟩ := Ty.over_func.mp hfit.1
      obtain ⟨hfc, hfd⟩ := Ty.over_func.mp hfit.2
      obtain ⟨x, y, rfl, hx, hy⟩ := Denotes.func_iff.mp hml
      obtain ⟨x', y', rfl, hx', hy'⟩ := Denotes.func_iff.mp hmr
      simp only [Meaning.func.sizeOf_spec] at hle
      obtain ⟨o, heach, ho⟩ := exists_each hf hw [(a, c), (b, d)] hs hθ (by
        intro q hq
        rcases List.mem_pair.mp hq with rfl | rfl
        · exact ⟨⟨ha, hc⟩, hfa, hfc⟩
        · exact ⟨⟨hb, hd⟩, hfb, hfd⟩) (.inr ⟨hcard, by
        intro q hq m m' hm hm'
        rcases List.mem_pair.mp hq with rfl | rfl
        · rw [hm.unique hx, hm'.unique hx']; omega
        · rw [hm.unique hy, hm'.unique hy']; omega⟩)
      exact hheads o (.func heach) ho
  | @app f as hn has =>
    cases hr with
    | var => cases hnr
    | func => exact hclash rfl
    | @app g bs hn' hbs =>
      by_cases heq : f = g ∧ as.length = bs.length
      · obtain ⟨rfl, hlen⟩ := heq
        obtain ⟨ms, rfl, hms⟩ := (Denotes.app_iff (Ty.FirstOrder.app hn has).expand_ne).mp hml
        obtain ⟨ms', rfl, hms'⟩ := (Denotes.app_iff (Ty.FirstOrder.app hn' hbs).expand_ne).mp hmr
        simp only [Meaning.app.sizeOf_spec] at hle
        obtain ⟨o, heach, ho⟩ := exists_each hf hw (as.zip bs) hs hθ (by
          intro q hq
          obtain ⟨hq1, hq2⟩ := List.of_mem_zip hq
          exact ⟨⟨has _ hq1, hbs _ hq2⟩, Ty.over_app.mp hfit.1 _ hq1, Ty.over_app.mp hfit.2 _ hq2⟩)
          (.inr ⟨hcard, by
          intro q hq m m' hm hm'
          obtain ⟨hq1, hq2⟩ := List.of_mem_zip hq
          obtain ⟨x, hx, hqx⟩ := exists_of_forall₂_left hms hq1
          obtain ⟨x', hx', hqx'⟩ := exists_of_forall₂_left hms' hq2
          rw [hm.unique hqx, hm'.unique hqx']
          have := List.sizeOf_lt_of_mem hx
          have := List.sizeOf_lt_of_mem hx'
          omega⟩)
        exact hheads o (.app hlen heach) ho
      · exact hclash (by simp [clash, heq])

theorem stops_vars {v x : Var} (hs : s.FirstOrder) (hfit : (Call.vars v x).Fits s.size)
    (hweigh : Weighs f w s (.var v) (.var x)) : Stops (.vars v x) s := by
  obtain ⟨hv, hx⟩ := hfit
  obtain ⟨a, s1, hfv⟩ : ∃ a s1, s.find v = (a, s1) := ⟨_, _, rfl⟩
  obtain ⟨b, s2, hfx⟩ : ∃ b s2, s1.find x = (b, s2) := ⟨_, _, rfl⟩
  obtain ⟨rfl, rfl, hf2, hal, -, ⟨ha, hb⟩, -⟩ := find_both hs.forest hv hx hfv hfx
  have hs2 := hs.alike hf2 hal
  obtain ⟨o, hroots, ho⟩ := exists_roots hs2 ha hb (by
    intro l r hkl hkr
    have hkv : s2.kind v = .bound l := by rw [← hkl, hal.kind, hal.kind, kind_root hs.forest]
    have hkx : s2.kind x = .bound r := by rw [← hkr, hal.kind, hal.kind, kind_root hs.forest]
    exact stops_terms hf hw hs2 ⟨hs2.terms v l hkv, hs2.terms x r hkx⟩
      ⟨hs2.fits v l hkv, hs2.fits x r hkx⟩
      ((Weighs.bound hkx).2 ((Weighs.bound hkv).1 (hweigh.alike hal))))
  exact .of_rule (.vars hfv hfx hroots) ho

theorem stops_var (side : Side) {v : Var} (hs : s.FirstOrder)
    (hc : (Call.var side v t).FirstOrder s.aliases) (hfit : (Call.var side v t).Fits s.size)
    (hweigh : (side = .left → Weighs f w s (.var v) t) ∧ (side = .right → Weighs f w s t (.var v)))
    : Stops (.var side v t) s := by
  obtain ⟨a, s1, hfv⟩ : ∃ a s1, s.find v = (a, s1) := ⟨_, _, rfl⟩
  obtain ⟨rfl, hf1, hal, _⟩ := find_spec hs.forest hfit.1 hfv
  have hs1 := hs.alike hf1 hal
  have hlt : s.root v < s1.size := by rw [hal.size]; exact hs.forest.root_lt hfit.1
  have ht : t.Fits s1.size := by rw [hal.size]; exact hfit.2
  cases hcon : s1.content (s.root v) with
  | poisoned => exact absurd (kind_eq_poisoned.mpr hcon) (hs1.healthy _ hlt)
  | unbound rank hint =>
    obtain ⟨k, hk⟩ := hs1.exists_adopt hlt ht rank fun s' => s'.put (s.root v) (.bound t)
    exact .of_rule (.bind hfv hcon rfl hk) hk
  | bound u =>
    have hku : s1.kind v = .bound u := by
      rw [← kind_root hf1, hal.root]; exact kind_eq_bound.mpr hcon
    have hft : t.FirstOrder s1.aliases ∧ t.isVar = false := by rw [hal.aliases]; exact hc
    have hstop : Stops (.against side u t) s1 := by
      cases side with
      | left =>
        exact stops_terms hf hw hs1 ⟨hs1.terms v u hku, hft⟩ ⟨hs1.fits v u hku, ht⟩
          ((Weighs.bound hku).1 ((hweigh.1 rfl).alike hal))
      | right =>
        exact stops_terms hf hw hs1 ⟨hft, hs1.terms v u hku⟩ ⟨ht, hs1.fits v u hku⟩
          ((Weighs.bound hku).2 ((hweigh.2 rfl).alike hal))
    obtain ⟨o, ho, hfuel⟩ := hstop
    refine .of_rule (.bound hfv hcon ho) ?_
    cases o with
    | outOfFuel => exact absurd rfl hfuel
    | _ => simp [Outcome.onFailure]

theorem stops_types (hs : s.FirstOrder) (hc : (Call.types l r).FirstOrder s.aliases)
    (hfit : (Call.types l r).Fits s.size) (hweigh : Weighs f w s l r) : Stops (.types l r) s := by
  have hrule : ∀ {c}, Stops c s → (∀ o, Completes c s o → Rule .any Completes (.types l r) s o) →
      Stops (.types l r) s := fun ⟨o, ho, hfuel⟩ h => .of_rule (h o ho) hfuel
  cases hl : l.isVar with
  | true =>
    cases l with
    | var v =>
      cases hr : r.isVar with
      | true =>
        cases r with
        | var x =>
          exact hrule (stops_vars hf hw hs ⟨hfit.1.lt (by simp), hfit.2.lt (by simp)⟩ hweigh)
            fun o h => .varVar h
        | _ => cases hr
      | false =>
        exact hrule (stops_var hf hw .left hs ⟨hc.2, hr⟩ ⟨hfit.1.lt (by simp), hfit.2⟩
          ⟨fun _ => hweigh, nofun⟩) fun o h => .varLeft hr h
    | _ => cases hl
  | false =>
    cases hr : r.isVar with
    | true =>
      cases r with
      | var x =>
        exact hrule (stops_var hf hw .right hs ⟨hc.1, hl⟩ ⟨hfit.2.lt (by simp), hfit.1⟩
          ⟨nofun, fun _ => hweigh⟩) fun o h => .varRight hl h
      | _ => cases hr
    | false =>
      exact hrule (stops_terms hf hw hs ⟨⟨hc.1, hl⟩, hc.2, hr⟩ hfit hweigh) fun o h => .noVar hl hr h

end Descent

theorem stopsAt (f w : Nat) : StopsAt f w := by
  induction f using Nat.strong_induction_on generalizing w with
  | _ f hf =>
    induction w using Nat.strong_induction_on with
    | _ w hw => exact fun s l r hs hc hfit => stops_types (fun f' h w' => hf f' h w') hw hs hc hfit

/-- Unification of first-order types comes to an end. -/
theorem FirstOrder.stops (hs : s.FirstOrder) (hc : (Call.types l r).FirstOrder s.aliases)
    (hfit : (Call.types l r).Fits s.size) : Stops (.types l r) s := by
  obtain ⟨w, hw⟩ := hs.exists_weighs l r
  exact stopsAt _ w s l r hs hc hfit hw

/-! ## The most general unifier -/

theorem FirstOrder.fresh (hs : s.FirstOrder) (rank : Rank) (hint : Option String) :
    (s.fresh rank hint).2.FirstOrder := by
  have hsteps : Steps .strict false s (s.fresh rank hint).2 := .single (.fresh rank hint)
  refine ⟨hsteps.intact hs.toIntact, fun v t hk => ?_⟩
  obtain ⟨_, _, hc⟩ := fresh_view hs.forest rank hint
  rw [kind_eq_bound, hc] at hk
  split at hk
  · cases hk
  · exact hs.terms v t (kind_eq_bound.mpr hk)

theorem History.firstOrder {table : AliasTable} {compress : Bool} (hu : table.Usable)
    (h : History .any (Ty.FirstOrder table) false table compress s) :
    s.FirstOrder ∧ s.aliases = table := by
  induction h with
  | start =>
    have hk : ∀ v t, ({ aliases := table, compress := compress } : Store).kind v ≠ .bound t :=
      fun v t hk => absurd (lt_of_kind (by rw [hk]; simp)) (Nat.not_lt_zero v)
    refine ⟨⟨⟨wellFormed_empty hu compress, ⟨fun v => .intro v ?_⟩, ?_⟩, ?_⟩, rfl⟩
    · rintro r ⟨t, ht, _⟩; exact absurd ht (hk v t)
    · exact fun v hv => absurd hv (Nat.not_lt_zero v)
    · exact fun v t ht => absurd ht (hk v t)
  | unified _ huse ih =>
    obtain ⟨hs, hal⟩ := ih
    cases huse with
    | fresh rank hint => exact ⟨hs.fresh rank hint, hal⟩
    | unify hl hr hfl hfr h ho hkeeps =>
      have hrun := hkeeps.runs h ho
      obtain ⟨hs', _, hal'⟩ := (hrun.faithful hs (by rw [hal]; exact ⟨hfl, hfr⟩) ⟨hl, hr⟩).keeps _ rfl
      exact ⟨hs', hal'.trans hal⟩
    | unifyVars hv hw h ho hkeeps =>
      have hrun := hkeeps.runs h ho
      obtain ⟨hs', _, hal'⟩ := (hrun.faithful hs trivial ⟨hv, hw⟩).keeps _ rfl
      exact ⟨hs', hal'.trans hal⟩
  | failed hfail => cases hfail

def UnifiedBy (m m' : Meaning) (θ : Valuation) : Prop :=
  (∀ v, (θ v).Tidy) ∧ m.subst θ = m'.subst θ

/-- Unification of first-order types, in a store made by successful calls on such types, comes to
an end. It succeeds if and only if some substitution for the unbound classes makes the two types
equal, and fails otherwise. After a success, each variable means what it meant before under a
substitution that makes the types equal, and through which all others with this property factor. -/
theorem unify_mostGeneral {env : Environment} {table : AliasTable} (henv : env.Ordered)
    (htable : env.aliasTable = .ok table) {compress : Bool} {s : Store}
    (hs : History .any (Ty.FirstOrder table) false table compress s) {l r : Ty}
    (hl : l.Fits s.size) (hr : r.Fits s.size) (hfl : l.FirstOrder table)
    (hfr : r.FirstOrder table) :
    ∃ ml mr o,
      (EnoughFuel fun k => s.snapshot k l = some ml.named ∧ s.snapshot k r = some mr.named) ∧
      (EnoughFuel fun k => unify k l r s = o) ∧
      ((∃ s', o = .unified s') ↔ ∃ θ, UnifiedBy ml mr θ) ∧
      ((∃ m s', o = .failed m s') ↔ ¬ ∃ θ, UnifiedBy ml mr θ) ∧
      ∀ s', o = .unified s' → ∃ σ, UnifiedBy ml mr σ ∧
        (∀ v, v < s.size → ∃ m : Meaning, EnoughFuel fun k =>
          s.snapshot k (.var v) = some m.named ∧ s'.snapshot k (.var v) = some (m.subst σ).named) ∧
        ∀ θ, UnifiedBy ml mr θ → ∃ δ : Valuation,
          ∀ u, s.root u = u → s.kind u = .free → θ u = (σ u).subst δ := by
  obtain ⟨hfo, rfl⟩ := hs.firstOrder (Environment.aliasTable_usable henv htable)
  have hfit : (Call.types l r).Fits s.size := ⟨hl, hr⟩
  obtain ⟨θ0, h0⟩ := hfo.grounded.exists_reading hfo.toFormed hfo.usable
  obtain ⟨ml, hml⟩ := hfo.usable.exists_denotes θ0 l
  obtain ⟨mr, hmr⟩ := hfo.usable.exists_denotes θ0 r
  obtain ⟨o, ho, hfuel⟩ := hfo.stops ⟨hfl, hfr⟩ hfit
  obtain ⟨n, hrun⟩ := ho.runs hfuel
  have hfaithful := hrun.faithful hfo ⟨hfl, hfr⟩ hfit
  -- a unifier is a solution of the old store in which the two types are equal, and so it solves
  -- the new store
  have hcomplete : ∀ θ, UnifiedBy ml mr θ →
      ∃ s', o = .unified s' ∧ s'.SolvedBy fun v => (θ0 v).subst θ := by
    rintro θ ⟨htidy, heq⟩
    refine hfaithful.complete _ (h0.solvedBy_subst hfo.toFormed hfo.usable htidy)
      ⟨ml.subst θ, ?_, ?_⟩
    · exact hml.subst hfo.usable htidy (Ty.Over.mono hl fun v _ => ⟨h0.tidy v, rfl⟩)
    · rw [heq]
      exact hmr.subst hfo.usable htidy (Ty.Over.mono hr fun v _ => ⟨h0.tidy v, rfl⟩)
  -- the reading of the new store is a solution of the old one, and a unifier
  have hsound : ∀ s', o = .unified s' → ∃ σ, s'.FirstOrder ∧ s'.size = s.size ∧ s'.Reading σ ∧
      s.SolvedBy σ ∧ UnifiedBy ml mr σ := by
    rintro s' rfl
    obtain ⟨hs', hsize, _⟩ := hfaithful.keeps s' rfl
    obtain ⟨σ, hσ⟩ := hs'.grounded.exists_reading hs'.toFormed hs'.usable
    obtain ⟨hsolved, m, hlm, hrm⟩ :=
      (hrun.strict hfo ⟨hfl, hfr⟩ hfit).sound hfo.toIntact hfit s' rfl hfo.toIntact σ hσ.toSolvedBy
    have hl' := hsolved.denotes_subst h0 hfo.grounded hfo.toFormed hfo.usable hl hml
    have hr' := hsolved.denotes_subst h0 hfo.grounded hfo.toFormed hfo.usable hr hmr
    exact ⟨σ, hs', hsize, hσ, hsolved, hσ.tidy, by rw [hl'.unique hlm, hr'.unique hrm]⟩
  have hiff : (∃ s', o = .unified s') ↔ ∃ θ, UnifiedBy ml mr θ := by
    constructor
    · rintro ⟨s', hs'⟩
      obtain ⟨σ, _, _, _, _, hσ⟩ := hsound s' hs'
      exact ⟨σ, hσ⟩
    · rintro ⟨θ, hθ⟩
      obtain ⟨s', hs', _⟩ := hcomplete θ hθ
      exact ⟨s', hs'⟩
  refine ⟨ml, mr, o, (h0.snapshot hfo.grounded hfo.toFormed hfo.usable hl hml).and
    (h0.snapshot hfo.grounded hfo.toFormed hfo.usable hr hmr), ho, hiff, ?_, fun s' hs' => ?_⟩
  · rw [← hiff]
    cases o with
    | unified s' => simp
    | failed m s' => simp
    | outOfFuel => exact absurd rfl hfuel
  · obtain ⟨σ, hfo', hsize, hσ, hsolved, hunified⟩ := hsound s' hs'
    refine ⟨σ, hunified, fun v hv => ⟨θ0 v, ?_⟩, fun θ hθ => ⟨fun v => (θ0 v).subst θ, ?_⟩⟩
    · rw [← hsolved.eq_subst h0 hfo.grounded hfo.toFormed hfo.usable v hv]
      exact (h0.snapshot hfo.grounded hfo.toFormed hfo.usable (Ty.over_var.mpr hv) (.var v)).and
        (hσ.snapshot hfo'.grounded hfo'.toFormed hfo'.usable
          (Ty.over_var.mpr (by rw [hsize]; exact hv)) (.var v))
    · intro u hu hk
      obtain ⟨s'', hs'', hsolved'⟩ := hcomplete θ hθ
      cases hs'.symm.trans hs''
      have hlt : u < s'.size := by rw [hsize]; exact lt_of_kind (by rw [hk]; simp)
      have heq := hsolved'.eq_subst hσ hfo'.grounded hfo'.toFormed hfo'.usable u hlt
      rwa [h0.free u hk, hu, Meaning.subst] at heq

/-- Two functions, each with a variable where the other has a list. -/
theorem unify_mostGeneral_lists : ∃ ml mr θ,
    (EnoughFuel fun k =>
      (blank boxes.aliases 3).snapshot k (.func (.var 0) (.list (.var 1))) = some ml.named ∧
      (blank boxes.aliases 3).snapshot k (.func (.list (.var 1)) (.var 2)) = some mr.named) ∧
    UnifiedBy ml mr θ := by
  have hfo : ∀ v, (Ty.list (.var v)).FirstOrder boxes.aliases := fun v =>
    .app rfl fun a ha => by rw [List.mem_singleton.mp ha]; exact .var
  have hfits : (Ty.func (.var 0) (.list (.var 1))).Fits 3 ∧
      (Ty.func (.list (.var 1)) (.var 2)).Fits 3 := by
    simp [Ty.Fits, Ty.over_func, Ty.over_app, Ty.over_var, Ty.list]
  obtain ⟨ml, mr, o, hsnap, hrun, hiff, _⟩ := unify_mostGeneral boxes_ordered boxes_aliasTable
    (history_blank boxes.aliases 3) hfits.1 hfits.2 (.func .var (hfo 1)) (.func (hfo 1) .var)
  have hunify : ∃ s', unify 12 (.func (.var 0) (.list (.var 1))) (.func (.list (.var 1)) (.var 2))
      (blank boxes.aliases 3) = .unified s' := ⟨_, rfl⟩
  obtain ⟨s', hunify⟩ := hunify
  obtain ⟨θ, hθ⟩ := hiff.mp ⟨s', Completes.eq_of_run (c := .types _ _) (n := 12) hrun hunify (by simp)⟩
  exact ⟨ml, mr, θ, hsnap, hθ⟩

end Store
end TypeSolver
