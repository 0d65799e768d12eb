import TypeSolver.Proofs.Health
import TypeSolver.Proofs.Ranks

/-!
# TypeSolver.Proofs.Lifecycle

What becomes of a slot in the course of time. An unbound class sinks, is bound, is given up or goes
under another; a bound class is given up or goes under another, but is not bound again; and a
variable that is linked stays linked (`Slot.Becomes`).

`Ages` says this of a whole store. A call of the unifier, whether it succeeds or fails, does nothing
but a series of writes (`Runs.writes`); each of them ages the store (`Write.ages`), and so do
operations one after the other (`operations_age`). Nothing is asked of aliases or of the order of
fields.
-/

namespace TypeSolver

/-- How a slot may change in time. -/
inductive Slot.Becomes : Slot → Slot → Prop where
  | same {slot : Slot} : Becomes slot slot
  | sunk {rank rank' : Rank} {hint hint' : Option String} : rank' ≤ rank →
      Becomes (.root (.unbound rank hint)) (.root (.unbound rank' hint'))
  | bound {rank : Rank} {hint : Option String} {t : Ty} :
      Becomes (.root (.unbound rank hint)) (.root (.bound t))
  | poisoned {c : Content} : Becomes (.root c) (.root .poisoned)
  | linked {slot : Slot} {next : Var} : Becomes slot (.link next)

theorem Slot.Becomes.trans {x y z : Slot} (h : x.Becomes y) (h' : y.Becomes z) : x.Becomes z := by
  cases h' with
  | same => exact h
  | linked => exact .linked
  | sunk hle' =>
    cases h with
    | same => exact .sunk hle'
    | sunk hle => exact .sunk (hle'.trans hle)
  | bound =>
    cases h with
    | same => exact .bound
    | sunk => exact .bound
  | poisoned =>
    cases h with
    | same => exact .poisoned
    | sunk => exact .poisoned
    | bound => exact .poisoned
    | poisoned => exact .poisoned

namespace Store

variable {s s' s'' : Store}

/-- From `s` to `s'` slots have changed as they may. Links are a forest again, bound classes stand
for types over the store, and a class that has a rank now had one before that was no lower. -/
structure Ages (s s' : Store) : Prop where
  forest : s'.Forest
  contained : s'.Contained
  size_le : s.size ≤ s'.size
  slots : ∀ (v : Var) (slot : Slot), s.slots[v]? = some slot →
    ∃ slot', s'.slots[v]? = some slot' ∧ slot.Becomes slot'
  rank : ∀ v k', v < s.size → s'.rank? v = some k' → ∃ k, s.rank? v = some k ∧ k' ≤ k

namespace Ages

theorem refl (hf : s.Forest) (hc : s.Contained) : s.Ages s :=
  ⟨hf, hc, le_rfl, fun _ slot h => ⟨slot, h, .same⟩,
    fun _ k' _ h => ⟨k', h, le_rfl⟩⟩

theorem trans (h : s.Ages s') (h' : s'.Ages s'') : s.Ages s'' where
  forest := h'.forest
  contained := h'.contained
  size_le := h.size_le.trans h'.size_le
  slots v slot hv := by
    obtain ⟨slot1, hv1, hb1⟩ := h.slots v slot hv
    obtain ⟨slot2, hv2, hb2⟩ := h'.slots v slot1 hv1
    exact ⟨slot2, hv2, hb1.trans hb2⟩
  rank v k2 hv hk2 := by
    obtain ⟨k1, hk1, hle1⟩ := h'.rank v k2 (hv.trans_le h.size_le) hk2
    obtain ⟨k, hk, hle⟩ := h.rank v k1 hv hk1
    exact ⟨k, hk, hle1.trans hle⟩

theorem rank?_eq_none (h : s.Ages s') {v : Var} (hv : v < s.size) (hk : s.rank? v = none) :
    s'.rank? v = none := by
  rw [Option.eq_none_iff_forall_ne_some]
  intro k' hk'
  obtain ⟨k, hk1, _⟩ := h.rank v k' hv hk'
  rw [hk] at hk1
  cases hk1

end Ages

theorem rank?_eq_none_of_bound {v : Var} {t : Ty} (h : s.content v = .bound t) :
    s.rank? v = none := by
  rw [rank?, h]

/-! ## Writes -/

theorem slot_of_root (h : s.Forest) {r : Var} (hr : r < s.size) (hroot : s.root r = r) :
    s.slots[r]? = some (.root (s.content r)) := by
  have hslot : s.slots[r]? = some s.slots[r] := Array.getElem?_eq_getElem hr
  cases hc : s.slots[r] with
  | link w => exact absurd (hslot.trans (congrArg some hc)) (h.linksEnd.not_link hroot w)
  | root c => rw [hslot, hc, content, hroot, hslot, hc]

section Writes

variable (h : s.Forest) (hs : s.Contained)

include h hs

variable {a b v : Var}

/-- Looking up a variable relinks linked variables only. -/
theorem find_ages (hv : v < s.size) : s.Ages (s.find v).2 := by
  have hshort := find_shortened h.linksEnd v
  have hal := find_alike h hv
  refine ⟨find_forest h hv, fun w t hk => ?_, hal.size.ge, fun w slot hw => ?_, fun w k' _ hk' => ?_⟩
  · rw [hal.size]; exact hs w t (by rwa [← hal.kind])
  · cases slot with
    | root c => exact ⟨_, hshort.roots w c hw, .same⟩
    | link next =>
      have hlt : w < (s.find v).2.slots.size := by
        rw [hshort.size]; exact (Array.getElem?_eq_some_iff.mp hw).1
      refine ⟨(s.find v).2.slots[w], Array.getElem?_eq_getElem hlt, ?_⟩
      cases hc : (s.find v).2.slots[w] with
      | link _ => exact .linked
      | root c =>
        obtain ⟨n, hpath⟩ := h.path w
        obtain ⟨m, hpath'⟩ := hshort.paths hpath
        have hhere : Path (s.find v).2.slots 0 w w := .here fun x hx => by
          rw [Array.getElem?_eq_getElem hlt, hc] at hx; cases hx
        rw [← (hhere.unique hpath').2] at hpath
        exact absurd hw (hpath.not_link next)
  · rw [rank?, find_content h hv] at hk'
    exact ⟨k', hk', le_rfl⟩

theorem relinked_ages (h' : Relinked s s') : s.Ages s' := by
  induction h' with
  | refl => exact .refl h hs
  | @find s1 v _ ih =>
    by_cases hv : v < s1.size
    · exact ih.trans (find_ages ih.forest ih.contained hv)
    · rwa [find_of_size_le (Nat.le_of_not_lt hv)]

theorem put_ages {r : Var} (hr : r < s.size) (hroot : s.root r = r) {c : Content}
    (hbecomes : (Slot.root (s.content r)).Becomes (.root c))
    (hbelow : ∀ t, c = .bound t → t.Below s.size) : s.Ages (s.put r c) := by
  obtain ⟨hf, hro, hcon⟩ := put_view h hr hroot c
  refine ⟨hf, fun v t hk => ?_, (put_size ..).ge, fun v slot hv => ?_, fun v k' _ hk' => ?_⟩
  · rw [put_size]
    rw [kind_eq_bound, hcon] at hk
    split at hk
    · exact hbelow t hk
    · exact hs v t (kind_eq_bound.mpr hk)
  · rw [put_slot]
    split
    · rename_i hrv
      obtain ⟨rfl, _⟩ := hrv
      rw [slot_of_root h hr hroot] at hv
      cases hv
      exact ⟨_, rfl, hbecomes⟩
    · exact ⟨slot, hv, .same⟩
  · obtain ⟨hint, hk'⟩ := rank?_eq_some.mp hk'
    rw [hcon] at hk'
    split at hk'
    · rename_i hvr
      subst hk'
      have hc : s.content v = s.content r := by rw [← hvr, h.content_root]
      rw [← hc] at hbecomes
      generalize hold : s.content v = old at hbecomes
      cases hbecomes with
      | same => exact ⟨k', rank?_eq_some.mpr ⟨_, hold⟩, le_rfl⟩
      | sunk hle => exact ⟨_, rank?_eq_some.mpr ⟨_, hold⟩, hle⟩
    · exact ⟨k', rank?_eq_some.mpr ⟨hint, hk'⟩, le_rfl⟩

theorem link_ages (ha : a < s.size) (hb : b < s.size) (hra : s.root a = a) (hrb : s.root b = b)
    (hab : a ≠ b) (hrank : ∀ k', s.rank? b = some k' → ∃ k, s.rank? a = some k ∧ k' ≤ k) :
    s.Ages (s.link a b) := by
  obtain ⟨hf, hro, hcon⟩ := link_view h ha hb hra hrb hab
  refine ⟨hf, fun v t hk => ?_, (link_size ..).ge, fun v slot hv => ?_, fun v k' _ hk' => ?_⟩
  · rw [link_size]
    rw [kind_eq_bound, hcon] at hk
    split at hk
    · exact hs b t (kind_eq_bound.mpr hk)
    · exact hs v t (kind_eq_bound.mpr hk)
  · rw [link_slot]
    split
    · exact ⟨_, rfl, .linked⟩
    · exact ⟨slot, hv, .same⟩
  · obtain ⟨hint, hk'⟩ := rank?_eq_some.mp hk'
    rw [hcon] at hk'
    split at hk'
    · rename_i hva
      obtain ⟨k, hk, hle⟩ := hrank k' (rank?_eq_some.mpr ⟨hint, hk'⟩)
      exact ⟨k, by rw [← rank?_root h, hva, hk], hle⟩
    · exact ⟨k', rank?_eq_some.mpr ⟨hint, hk'⟩, le_rfl⟩

theorem fresh_ages (rank : Rank) (hint : Option String) : s.Ages (s.fresh rank hint).2 := by
  obtain ⟨hf, _, hcon⟩ := fresh_view h rank hint
  have hle : s.size ≤ (s.fresh rank hint).2.size := by rw [fresh_size]; exact Nat.le_succ _
  refine ⟨hf, fun v t hk => ?_, hle, fun v slot hv => ⟨slot, ?_, .same⟩, fun v k' hv hk' => ?_⟩
  · rw [kind_eq_bound, hcon] at hk
    split at hk
    · cases hk
    · exact (hs v t (kind_eq_bound.mpr hk)).mono hle
  · have hlt : v < s.size := (Array.getElem?_eq_some_iff.mp hv).1
    rw [fresh_slot, if_neg (Nat.ne_of_lt hlt), hv]
  · rw [rank?, hcon, if_neg (Nat.ne_of_lt hv)] at hk'
    exact ⟨k', hk', le_rfl⟩

theorem poison_ages (hv : v < s.size) : s.Ages (s.poison v) := by
  have hfind := find_ages h hs hv
  have hal := find_alike h hv
  have hr : s.root v < (s.find v).2.size := by rw [hal.size]; exact h.root_lt hv
  have hroot : (s.find v).2.root (s.root v) = s.root v := by rw [hal.root, h.root_root]
  have hput := put_ages hfind.forest hfind.contained hr hroot (.poisoned) (by rintro _ ⟨⟩)
  have heq : s.poison v = (s.find v).2.put (s.root v) .poisoned := by rw [← find_fst]; rfl
  rw [heq]
  exact hfind.trans hput

theorem lowerRank_ages (rank : Rank) (v : Var) : s.Ages (lowerRank rank s v) := by
  rw [lowerRank]
  cases hc : s.content v with
  | bound t => exact .refl h hs
  | poisoned => exact .refl h hs
  | unbound current hint =>
    simp only
    split
    · rename_i hlt
      have hv : v < s.size := lt_of_kind (by rw [kind, hc]; simp [Content.kind])
      refine put_ages h hs (h.root_lt hv) (h.root_root v) ?_ (by rintro _ ⟨⟩)
      rw [h.content_root, hc]
      exact .sunk (hlt.le)
    · exact .refl h hs

theorem lowerRanks_ages (vs : List Var) (rank : Rank) : s.Ages (s.lowerRanks vs rank) := by
  induction vs generalizing s with
  | nil => exact .refl h hs
  | cons v vs ih =>
    have hv := lowerRank_ages h hs rank v
    exact hv.trans (ih hv.forest hv.contained)

theorem merge_ages (ha : a < s.size) (hb : b < s.size) (hra : s.root a = a) (hrb : s.root b = b)
    (hab : a ≠ b) {rankA rankB : Rank} {hintA hintB : Option String}
    (hca : s.content a = .unbound rankA hintA) (hcb : s.content b = .unbound rankB hintB)
    (hint : Option String) : s.Ages ((s.link a b).put b (.unbound (min rankA rankB) hint)) := by
  have hswap : (s.link a b).put b (.unbound (min rankA rankB) hint) =
      (s.put b (.unbound (min rankA rankB) hint)).link a b := by
    rw [put, link, put, link, Array.setIfInBounds_comm _ _ hab]
  obtain ⟨_, hro, hcon⟩ := put_view h hb hrb (.unbound (min rankA rankB) hint)
  have hput : s.Ages (s.put b (.unbound (min rankA rankB) hint)) := by
    refine put_ages h hs hb hrb ?_ (by rintro _ ⟨⟩)
    rw [hcb]
    exact .sunk (Nat.min_le_right _ _)
  rw [hswap]
  refine hput.trans (link_ages hput.forest hput.contained ?_ ?_ ?_ ?_ hab fun k' hk' => ?_)
  · rw [put_size]; exact ha
  · rw [put_size]; exact hb
  · rw [hro, hra]
  · rw [hro, hrb]
  · rw [rank?, hcon, if_pos hrb] at hk'
    cases hk'
    refine ⟨rankA, ?_, Nat.min_le_left _ _⟩
    rw [rank?, hcon, hra, if_neg hab, hca]

end Writes

/-! ## Calls -/

/-- One write of the unifier. Where one class goes under another, both unbound ones become one, or
the other one is not unbound; and what was given up goes under what was, unless the guard lets it. -/
inductive Write (g : Guard) (s : Store) : Store → Prop where
  | find {v a : Var} {s' : Store} : v < s.size → s.find v = (a, s') → Write g s s'
  | fresh (rank : Rank) (hint : Option String) : Write g s (s.fresh rank hint).2
  | lower (vs : List Var) (rank : Rank) : Write g s (s.lowerRanks vs rank)
  | bind {a : Var} {t : Ty} : a < s.size → s.root a = a → s.kind a = .free → t.Below s.size →
      Write g s (s.put a (.bound t))
  | link {a b : Var} : a < s.size → b < s.size → s.root a = a → s.root b = b → a ≠ b →
      s.kind b ≠ .free → (s.kind a = .poisoned → s.kind b = .poisoned) ∨ g.join s a b →
      Write g s (s.link a b)
  | merge {a b : Var} {rankA rankB : Rank} {hintA hintB : Option String} (hint : Option String) :
      a < s.size → b < s.size → s.root a = a → s.root b = b → a ≠ b →
      s.content a = .unbound rankA hintA → s.content b = .unbound rankB hintB →
      Write g s ((s.link a b).put b (.unbound (min rankA rankB) hint))
  | poison {v : Var} : v < s.size → Write g s (s.poison v)

def Writes (g : Guard) : Store → Store → Prop := Relation.ReflTransGen (Write g)

/-- The store that an outcome leaves comes from `s` by writes. -/
def WritesTo (g : Guard) (s : Store) : Outcome → Prop
  | .unified s' => Writes g s s'
  | .failed _ s' => Writes g s s'
  | .outOfFuel => True

section Writes

variable {g : Guard} {o : Outcome}

theorem Write.ages (h : Write g s s') (hf : s.Forest) (hs : s.Contained) : s.Ages s' := by
  cases h with
  | find hv hfind => obtain rfl : (s.find _).2 = s' := by rw [hfind]
                     exact find_ages hf hs hv
  | fresh rank hint => exact fresh_ages hf hs rank hint
  | lower vs rank => exact lowerRanks_ages hf hs vs rank
  | bind ha hra hk ht =>
    obtain ⟨rank, hint, hc⟩ := kind_eq_free.mp hk
    exact put_ages hf hs ha hra (hc ▸ .bound) (by rintro _ ⟨⟩; exact ht)
  | link ha hb hra hrb hab hkb _ =>
    exact link_ages hf hs ha hb hra hrb hab fun k' hk' =>
      absurd (kind_eq_free_iff_rank?.mpr ⟨k', hk'⟩) hkb
  | merge hint ha hb hra hrb hab hca hcb => exact merge_ages hf hs ha hb hra hrb hab hca hcb hint
  | poison hv => exact poison_ages hf hs hv

theorem Writes.ages (h : Writes g s s') (hf : s.Forest) (hs : s.Contained) : s.Ages s' := by
  induction h with
  | refl => exact .refl hf hs
  | tail _ hw ih => exact ih.trans (hw.ages ih.forest ih.contained)

theorem Writes.trans_to (h : Writes g s s') (ho : WritesTo g s' o) : WritesTo g s o := by
  cases o with
  | unified _ => exact h.trans ho
  | failed _ _ => exact h.trans ho
  | outOfFuel => exact trivial

end Writes

/-- The call mentions only the first `n` variables. -/
def Call.Below (n : Nat) : Call → Prop
  | .types l r => l.Below n ∧ r.Below n
  | .vars v w => v < n ∧ w < n
  | .var _ v t => v < n ∧ t.Below n
  | .terms l r => l.Below n ∧ r.Below n
  | .rows rowL rowR _ _ => (rowType rowL).Below n ∧ (rowType rowR).Below n
  | .tails v w _ onlyLeft onlyRight =>
    v < n ∧ w < n ∧ (Ty.record onlyLeft none).Below n ∧ (Ty.record onlyRight none).Below n

variable {k n : Nat} {fields : List (String × Ty)} {ext : Option Var} {row rowL rowR : Row}
  {c : Call}

theorem Call.Fits.below (h : c.Fits n) : c.Below n := by
  cases c with
  | types | terms => exact ⟨h.1.below, h.2.below⟩
  | vars => exact h
  | var => exact ⟨h.1, h.2.below⟩
  | rows => exact ⟨h.1.below, h.2.1.below⟩
  | tails => exact ⟨h.1, h.2.1, h.2.2.1.below, h.2.2.2.below⟩

theorem head_below {table : AliasTable} {t u : Ty} (ht : t.Below n)
    (hhead : table.head k t = some (.settled u)) : u.Below n := by
  have hloose : table.Kinded .loose := fun name entry _ => Alias.kinded_loose name entry
  have hstands : t.Stands .loose (fun _ => .type) n .type := stands_loose ht .type
  exact below_of_stands (hloose.head Kinds.respects_standing hstands hhead)

theorem record_below : (Ty.record fields ext).Below n ↔
      (∀ f ∈ fields, f.2.Below n) ∧ ∀ v, ext = some v → v < n := by
  constructor
  · exact fun h => ⟨fun f hf v hv => h v (Ty.mem_vars_record.mpr (.inl ⟨f, hf, hv⟩)),
      fun v hv => h v (Ty.mem_vars_record.mpr (.inr hv))⟩
  · intro h v hv
    rcases Ty.mem_vars_record.mp hv with ⟨f, hf, hv⟩ | hv
    · exact h.1 f hf v hv
    · exact h.2 v hv

theorem union_below {fs gs : List (String × Ty)} {ext' : Option Var}
    (hf : (Ty.record fs ext).Below n) (hg : (Ty.record gs ext').Below n) :
    (Ty.record (Assoc.union fs gs) ext').Below n := by
  refine record_below.mpr ⟨fun f hmem => ?_, (record_below.mp hg).2⟩
  rcases Assoc.mem_of_mem_union hmem with hmem | hmem
  · exact (record_below.mp hf).1 f hmem
  · exact (record_below.mp hg).1 f hmem

theorem row_below (h : s.Forest) (hs : s.Contained) (hrow : s.row k fields ext = some row)
    (ht : (Ty.record fields ext).Below s.size) : (rowType row).Below s.size := by
  have hspoiled : ∀ {fields v}, (Ty.record fields (some v)).Below s.size →
      (rowType ⟨fields, .spoiled⟩).Below s.size :=
    fun ht => record_below.mpr ⟨(record_below.mp ht).1, by rintro _ ⟨⟩⟩
  refine row_induction (motive := fun fields ext row => (Ty.record fields ext).Below s.size →
    (rowType row).Below s.size) (fun _ ht => ht) ?_ (fun _ _ _ ht => hspoiled ht) ?_
    (fun _ _ _ _ _ _ _ _ ht => hspoiled ht) hrow ht
  · intro fields v _ _ _ ht
    refine record_below.mpr ⟨(record_below.mp ht).1, ?_⟩
    rintro _ ⟨⟩
    exact h.root_lt ((record_below.mp ht).2 v rfl)
  · intro k fields v t more rest row hc hhead ih ht
    exact ih (union_below ht (head_below (hs v t (kind_eq_bound.mpr hc)) hhead))

theorem without_below {row' : Row} (h : (rowType row).Below n) (hext : ∀ v, ext = some v → v < n) :
    (Ty.record (Assoc.without row.fields row'.fields) ext).Below n :=
  record_below.mpr ⟨fun f hf => (record_below.mp h).1 f (List.mem_filter.mp hf).1, hext⟩

theorem shared_below (hL : (rowType rowL).Below n) (hR : (rowType rowR).Below n) :
    ∀ q ∈ Assoc.shared rowL.fields rowR.fields, (Call.types q.1 q.2).Below n := by
  intro q hq
  obtain ⟨k, hl, hr⟩ := mem_shared hq
  exact ⟨(record_below.mp hL).1 _ hl, (record_below.mp hR).1 _ (Assoc.mem_of_get? hr)⟩

theorem operands_below {l r : Ty} (hl : l.Below n) (hr : r.Below n) :
    ∀ q ∈ operands l r, (Call.types q.1 q.2).Below n := by
  intro q hq
  rw [operands.eq_def] at hq
  split at hq
  · rcases List.mem_pair.mp hq with rfl | rfl
    · exact ⟨fun v hv => hl v (by simp [hv]), fun v hv => hr v (by simp [hv])⟩
    · exact ⟨fun v hv => hl v (by simp [hv]), fun v hv => hr v (by simp [hv])⟩
  · split at hq
    · obtain ⟨hq1, hq2⟩ := List.of_mem_zip hq
      exact ⟨fun v hv => hl v (Ty.mem_vars_app.mpr ⟨_, hq1, hv⟩),
        fun v hv => hr v (Ty.mem_vars_app.mpr ⟨_, hq2, hv⟩)⟩
    · cases hq
  · cases hq

theorem EndsInvoke.below (h : EndsInvoke rowL rowR s c) (hL : (rowType rowL).Below n)
    (hR : (rowType rowR).Below n) : c.Below n := by
  cases h with
  | openLeft _ hv _ => exact ⟨hL _ (mem_rowType hv), without_below hR nofun⟩
  | openRight _ _ hw => exact ⟨hR _ (mem_rowType hw), without_below hL nofun⟩
  | openBoth _ hv hw _ =>
    exact ⟨hL _ (mem_rowType hv), hR _ (mem_rowType hw), without_below hL nofun,
      without_below hR nofun⟩

theorem Poses.below {c' : Call} (h : Poses s c c') (hf : s.Forest) (hs : s.Contained)
    (hc : c.Below s.size) : c'.Below s.size := by
  cases h with
  | varVar => exact ⟨hc.1 _ (by simp), hc.2 _ (by simp)⟩
  | varLeft _ => exact ⟨hc.1 _ (by simp), hc.2⟩
  | varRight _ => exact ⟨hc.2 _ (by simp), hc.1⟩
  | noVar _ _ => exact hc
  | swapped => exact hc.symm
  | rootVars => exact ⟨hf.root_lt hc.1, hf.root_lt hc.2⟩
  | rootVar => exact ⟨hf.root_lt hc.1, hc.2⟩
  | join ha hb => exact ⟨hs _ _ (kind_eq_bound.mpr ha), hs _ _ (kind_eq_bound.mpr hb)⟩
  | @bound side a t u ha =>
    have hu := hs _ _ (kind_eq_bound.mpr ha)
    cases side with
    | left => exact ⟨hu, hc.2⟩
    | right => exact ⟨hc.2, hu⟩
  | head hl hr => exact ⟨head_below hc.1 hl, head_below hc.2 hr⟩
  | operand hl hr hq => exact operands_below (head_below hc.1 hl) (head_below hc.2 hr) _ hq
  | record hl hr hrowL hrowR =>
    exact ⟨row_below hf hs hrowL (head_below hc.1 hl), row_below hf hs hrowR (head_below hc.2 hr)⟩
  | field hq => exact shared_below hc.1 hc.2 _ hq
  | tail hends => exact hends.below hc.1 hc.2

theorem Call.Below.mono {m : Nat} (h : c.Below m) (hle : m ≤ n) : c.Below n := by
  cases c with
  | types | terms => exact ⟨h.1.mono hle, h.2.mono hle⟩
  | vars => exact ⟨h.1.trans_le hle, h.2.trans_le hle⟩
  | var => exact ⟨h.1.trans_le hle, h.2.mono hle⟩
  | rows => exact ⟨h.1.mono hle, h.2.mono hle⟩
  | tails =>
    exact ⟨h.1.trans_le hle, h.2.1.trans_le hle, h.2.2.1.mono hle,
      h.2.2.2.mono hle⟩

/-- A call leaves the store by writes. -/
theorem writes_tracker (g : Guard) (R : Call → Store → Outcome → Prop) :
    Tracker g R (fun (_ : Unit) c s => s.Forest ∧ s.Contained ∧ c.Below s.size)
      fun _ => WritesTo g where
  forest hc := hc.1
  lt hc := hc.2.2.1
  lt' hc := hc.2.2.1
  poses hc h := ⟨hc.1, hc.2.1, h.below hc.1 hc.2.1 hc.2.2⟩
  next {_ s s'} h := by
    refine ⟨(), fun c hc => ?_, fun o => h.trans_to⟩
    obtain ⟨hf, hs, hle, _, _⟩ := h.ages hc.1 hc.2.1
    exact ⟨hf, hs, hc.2.2.mono hle⟩
  refl _ := Relation.ReflTransGen.refl
  found hc hv hfind := .single (.find hv hfind)
  mismatch _ := Relation.ReflTransGen.refl
  poison {_ c s v m s'} hc hv h := by
    exact h.tail (.poison (hv.trans_le (h.ages hc.1 hc.2.1).size_le))
  rest {_ v w rank onlyLeft onlyRight s} hc := by
    obtain ⟨hf, hs, hv, hw, hleft, hright⟩ := hc
    have hnew := fresh_ages hf hs rank none
    have hrecord : ∀ {fields : List (String × Ty)}, (Ty.record fields none).Below s.size →
        (Ty.record fields (some s.size)).Below (s.fresh rank none).2.size := fun hf =>
      record_below.mpr ⟨(record_below.mp (hf.mono hnew.size_le)).1, by
        rintro _ ⟨⟩
        rw [fresh_size]
        exact Nat.lt_succ_self _⟩
    exact ⟨(), ⟨hnew.forest, hnew.contained, hv.trans_le hnew.size_le, hrecord hright⟩,
      ⟨hnew.forest, hnew.contained, hw.trans_le hnew.size_le, hrecord hleft⟩,
      fun o => Writes.trans_to (.single (.fresh rank none))⟩
  under hc hra hrb hab hcb := by
    have hk := kind_eq_poisoned.mpr hcb
    exact .single (.link hc.2.2.1 hc.2.2.2 hra hrb hab (by simp [hk]) (.inl fun _ => hk))
  merge hc hra hrb hab hca hcb := .single (.merge _ hc.2.2.1 hc.2.2.2 hra hrb hab hca hcb)
  adopt hc hra hrb hab hca hcb _ := by
    obtain ⟨hf, _, ha, hb⟩ := hc
    obtain ⟨_, hal⟩ := lowerRanks_alike hf _ (reach _ _)
    refine .tail (.single (.lower _ _)) (.link (by rwa [hal.size]) (by rwa [hal.size])
      (by rwa [hal.root]) (by rwa [hal.root]) hab ?_ (.inl fun hk => ?_))
    · rw [hal.kind, kind_eq_bound.mpr hcb]; simp
    · rw [hal.kind, kind_eq_free.mpr ⟨_, _, hca⟩] at hk; cases hk
  bind hc hra hca _ := by
    obtain ⟨hf, _, ha, ht⟩ := hc
    obtain ⟨_, hal⟩ := lowerRanks_alike hf _ (reach _ _)
    refine .tail (.single (.lower _ _)) (.bind (by rwa [hal.size]) (by rwa [hal.root]) ?_
      (by rwa [hal.size]))
    rw [hal.kind]
    exact kind_eq_free.mpr ⟨_, _, hca⟩
  join {_ a b s l r s1 s2} hc _ hcb _ h _ _ hne hguard := by
    obtain ⟨hf, hs, ha, hb⟩ := hc
    have hage := h.ages hf hs
    have hf2 := hage.forest
    refine h.tail (.link (hf2.root_lt (ha.trans_le hage.size_le))
      (hf2.root_lt (hb.trans_le hage.size_le)) (hf2.root_root a) (hf2.root_root b) hne
      (fun hk => ?_) (.inr hguard))
    rw [kind_root hf2, kind_eq_free_iff_rank?] at hk
    obtain ⟨k, hk⟩ := hk
    rw [hage.rank?_eq_none hb (rank?_eq_none_of_bound hcb)] at hk
    cases hk

theorem Runs.writes {g : Guard} {o : Outcome} (h : Runs g n c s o) (hf : s.Forest)
    (hs : s.Contained) (hc : c.Below s.size) : WritesTo g s o :=
  h.tracked (fun _ => writes_tracker g _) (x := ()) ⟨hf, hs, hc⟩

/-! ## Operations -/

/-- What can be asked of a store from outside. -/
inductive Operation where
  | fresh (rank : Rank) (hint : Option String)
  | find (v : Var)
  | unify (fuel : Nat) (l r : Ty)
  | unifyVars (fuel : Nat) (v w : Var)
  | snapshot (fuel : Nat) (t : Ty)

end Store

/-- The store that a unification leaves, if it came to an end. -/
def Outcome.store? : Outcome → Option Store
  | .unified s => some s
  | .failed _ s => some s
  | .outOfFuel => none

namespace Store

variable {s s' : Store}

namespace Operation

def Below (n : Nat) : Operation → Prop
  | .fresh _ _ => True
  | .find v => v < n
  | .unify _ l r => l.Below n ∧ r.Below n
  | .unifyVars _ v w => v < n ∧ w < n
  | .snapshot _ t => t.Below n

/-- The store after the operation, whether it succeeds or fails; `none` if the fuel does not
suffice. -/
def run : Operation → Store → Option Store
  | .fresh rank hint, s => some (s.fresh rank hint).2
  | .find v, s => some (s.find v).2
  | .unify fuel l r, s => (Store.unify fuel l r s).store?
  | .unifyVars fuel v w, s => (Store.unifyVars fuel v w s).store?
  | .snapshot fuel t, s => (s.takeSnapshot fuel t).map Prod.snd

end Operation

/-- Operations over variables that were made come to an end one after the other. -/
inductive Performs : List Operation → Store → Store → Prop where
  | nil {s : Store} : Performs [] s s
  | cons {op : Operation} {ops : List Operation} {s s1 s' : Store} : op.Below s.size →
      op.run s = some s1 → Performs ops s1 s' → Performs (op :: ops) s s'

/-- A call that comes to an end leaves the store by writes. -/
theorem Runs.writes_store? {g : Guard} {n : Nat} {c : Call} {o : Outcome} (h : Runs g n c s o)
    (hf : s.Forest) (hs : s.Contained) (hc : c.Below s.size) (ho : o.store? = some s') :
    Writes g s s' := by
  have hwrites := h.writes hf hs hc
  cases o with
  | unified _ => cases ho; exact hwrites
  | failed _ _ => cases ho; exact hwrites
  | outOfFuel => cases ho

theorem ran_ages {n : Nat} {c : Call} (hf : s.Forest) (hs : s.Contained) (hc : c.Below s.size)
    (h : (c.run n s).store? = some s') : s.Ages s' := by
  have hran : Ran n c s (c.run n s) := ⟨rfl, fun ho => by rw [ho] at h; cases h⟩
  exact ((runs_of_ran hran).writes_store? hf hs hc h).ages hf hs

theorem operation_ages {op : Operation} (hf : s.Forest) (hs : s.Contained)
    (hop : op.Below s.size) (h : op.run s = some s') : s.Ages s' := by
  cases op with
  | fresh rank hint => cases h; exact fresh_ages hf hs rank hint
  | find v => cases h; exact find_ages hf hs hop
  | unify fuel l r => exact ran_ages (c := .types l r) hf hs hop h
  | unifyVars fuel v w => exact ran_ages (c := .vars v w) hf hs hop h
  | snapshot fuel t =>
    obtain ⟨⟨_, s1⟩, hread, rfl⟩ := Option.map_eq_some_iff.mp h
    exact relinked_ages hf hs ((takeSnapshot_finds .refl hf.linksEnd fuel t).view_eq hread).2

theorem operations_age {ops : List Operation} (h : Performs ops s s') (hf : s.Forest)
    (hs : s.Contained) : s.Ages s' := by
  induction h with
  | nil => exact .refl hf hs
  | cons hop hrun _ ih =>
    have h1 := operation_ages hf hs hop hrun
    exact h1.trans (ih h1.forest h1.contained)

theorem contained_empty (table : AliasTable) (compress : Bool) :
    ({ aliases := table, compress := compress } : Store).Contained := by
  intro v t hk
  have hv := lt_of_kind (s := { aliases := table, compress := compress }) (v := v) (by rw [hk]; simp)
  exact absurd hv (Nat.not_lt_zero v)

/-- From the empty store on, whatever operations are made, with or without compression and whether
they succeed or fail: links stay inside the store and each variable's links end in a root, which is
what `find` returns; the variables of a bound type were made; and between any two moments a slot
has only changed as slots may. So what is bound stays bound to its type until it is given up or goes
under another class, and no class rises in rank. -/
theorem operations_lifecycle {table : AliasTable} {compress : Bool} {ops ops' : List Operation}
    {s s' : Store} (h : Performs ops { aliases := table, compress := compress } s)
    (h' : Performs ops' s s') :
    (∀ v w : Var, s'.slots[v]? = some (.link w) → w < s'.size) ∧
    (∀ v, v < s'.size → ∃ n c, Path s'.slots n v (s'.find v).1 ∧
      s'.slots[(s'.find v).1]? = some (.root c)) ∧
    (∀ (v : Var) (t : Ty), s'.slots[v]? = some (.root (.bound t)) → t.Below s'.size) ∧
    (∀ (v : Var) (slot : Slot), s.slots[v]? = some slot →
      ∃ slot', s'.slots[v]? = some slot' ∧ slot.Becomes slot') ∧
    (∀ (v : Var) (t t' : Ty), s.slots[v]? = some (.root (.bound t)) →
      s'.slots[v]? = some (.root (.bound t')) → t' = t) ∧
    ∀ v k', v < s.size → s'.rank? v = some k' → ∃ k, s.rank? v = some k ∧ k' ≤ k := by
  have hs := operations_age h (forest_empty table compress) (contained_empty table compress)
  have hs' := operations_age h' hs.forest hs.contained
  refine ⟨hs'.forest.inside, fun v hv => ?_, fun v t hv => ?_, hs'.slots, fun v t t' hv hv' => ?_,
    hs'.rank⟩
  · obtain ⟨n, hpath⟩ := hs'.forest.path v
    rw [find_fst]
    exact ⟨n, _, hpath, slot_of_root hs'.forest (hs'.forest.root_lt hv) (hs'.forest.root_root v)⟩
  · refine hs'.contained v t (kind_eq_bound.mpr ?_)
    have hpath : Path s'.slots 0 v v := .here fun w hw => by rw [hv] at hw; cases hw
    rw [content, hpath.root_eq, hv]
  · obtain ⟨slot', hslot', hbecomes⟩ := hs'.slots v _ hv
    rw [hv'] at hslot'
    cases hslot'
    cases hbecomes
    rfl

def threeMade : Store :=
  { slots := #[.root (.unbound 2 none), .root (.unbound 1 none), .root (.unbound 3 none)] }

def threeBound : Store :=
  { slots := #[.link 1, .root (.unbound 1 none), .root (.bound (.list (.var 0)))] }

def threePoisoned : Store :=
  { slots := #[.link 1, .root .poisoned, .root (.bound (.list (.var 0)))] }

/-- Two of three variables become one, and the third a list of it. Then the two are refused to be a
list of the third, and given up. -/
theorem operations_lifecycle_lists :
    Performs [.fresh 2 none, .fresh 1 none, .fresh 3 none] {} threeMade ∧
    Performs [.unifyVars 9 0 1, .unify 9 (.var 2) (.list (.var 0)),
      .unify 9 (.var 0) (.list (.var 2)), .find 0, .snapshot 9 (.var 2)]
      threeMade threePoisoned ∧
    ∀ (v : Var) (slot : Slot), threeMade.slots[v]? = some slot →
      ∃ slot', threePoisoned.slots[v]? = some slot' ∧ slot.Becomes slot' := by
  have hmade : Performs [.fresh 2 none, .fresh 1 none, .fresh 3 none] {} threeMade :=
    .cons trivial rfl (.cons trivial rfl (.cons trivial rfl .nil))
  have hbound : ∃ s, Operation.run (.unifyVars 9 0 1) threeMade = some s ∧ s.size = 3 ∧
      Operation.run (.unify 9 (.var 2) (.list (.var 0))) s = some threeBound :=
    ⟨_, rfl, rfl, rfl⟩
  have hpoisoned :
      Operation.run (.unify 9 (.var 0) (.list (.var 2))) threeBound = some threePoisoned := rfl
  have hread : Performs [.find 0, .snapshot 9 (.var 2)] threePoisoned threePoisoned :=
    .cons (show 0 < 3 by decide) rfl (.cons (show (Ty.var 2).Below 3 by decide) rfl .nil)
  obtain ⟨s, hfirst, hsize, hsecond⟩ := hbound
  have hlater : Performs [.unifyVars 9 0 1, .unify 9 (.var 2) (.list (.var 0)),
      .unify 9 (.var 0) (.list (.var 2)), .find 0, .snapshot 9 (.var 2)]
      threeMade threePoisoned := by
    refine .cons (show 0 < 3 ∧ 1 < 3 by decide) hfirst (.cons ?_ hsecond (.cons ?_ hpoisoned hread))
    · rw [hsize]; exact show (Ty.var 2).Below 3 ∧ (Ty.list (.var 0)).Below 3 by decide
    · exact show (Ty.var 0).Below 3 ∧ (Ty.list (.var 2)).Below 3 by decide
  exact ⟨hmade, hlater, (operations_lifecycle hmade hlater).2.2.2.1⟩

end Store
end TypeSolver
