import TypeSolver.Proofs.Calls

/-!
# TypeSolver.Proofs.Runs

What a run of the unifier does to the store. All writes are of five kinds (`Step`): ranks and
links change without effect on what is read, a variable is made, an unbound class is bound to a
type that does not lead to it, a class goes under another, and a class is given up. A call that
succeeds gives up nothing (`Runs.after`).

`Runs.rule_induction` is induction over runs: in each rule, every call is known to start in a
well-formed store, to be about types over that store, and to leave the store by steps.
-/

namespace TypeSolver
namespace Store

open Relation

/-- The store is formed, and its aliases come to an end. -/
structure WellFormed (s : Store) : Prop extends s.Formed where
  usable : s.aliases.Usable

/-! ## Steps -/

/-- One write to the store. Classes are given up only if `poisons` says so. -/
inductive Step (g : Guard) (poisons : Bool) : Store → Store → Prop where
  | alike {s s' : Store} : s'.Forest → Alike s s' → Step g poisons s s'
  | fresh {s : Store} (rank : Rank) (hint : Option String) : Step g poisons s (s.fresh rank hint).2
  | bind {s : Store} {r : Var} {t : Ty} : r < s.size → s.root r = r → s.kind r = .free →
      t.Fits s.size → r ∉ s.reach t → Step g poisons s (s.put r (.bound t))
  | link {s : Store} {a b : Var} : a < s.size → b < s.size → s.root a = a → s.root b = b → a ≠ b →
      ¬ s.Reaches b a ∨ g.join s a b → Step g poisons s (s.link a b)
  | poison {s : Store} {v : Var} : poisons = true → v < s.size → Step g poisons s (s.poison v)

def Steps (g : Guard) (poisons : Bool) : Store → Store → Prop := ReflTransGen (Step g poisons)

variable {g : Guard} {p : Bool} {s s' : Store}

theorem fresh_formed (h : s.Formed) (rank : Rank) (hint : Option String) :
    (s.fresh rank hint).2.Formed := by
  obtain ⟨hf, _, hc⟩ := fresh_view h.forest rank hint
  refine ⟨hf, fun v t ht => ?_⟩
  rw [kind_eq_bound, hc] at ht
  rw [fresh_size]
  split at ht
  · cases ht
  · exact (h.fits v t (kind_eq_bound.mpr ht)).mono (Nat.le_succ _)

variable {a b v : Var} {n : Nat} {c : Call} {row : Row} {V : Var → Prop} {ext : Option Var}
  {fields : List (String × Ty)} {o : Outcome} {t : Ty} {R : Call → Store → Outcome → Prop}
  {P : Ty → Prop}

theorem poison_formed (h : s.Formed) (hv : v < s.size) : (s.poison v).Formed := by
  obtain ⟨hf, _, hc⟩ := poison_view h.forest hv
  refine ⟨hf, fun w t ht => ?_⟩
  rw [kind_eq_bound, hc] at ht
  rw [poison_size h.forest hv]
  split at ht
  · cases ht
  · exact h.fits w t (kind_eq_bound.mpr ht)

theorem Step.formed (h : Step g p s s') (hs : s.Formed) : s'.Formed := by
  cases h with
  | alike hf ha => exact ha.formed hf hs
  | fresh rank hint => exact fresh_formed hs rank hint
  | bind hr hroot _ ht _ => exact put_formed hs hr hroot fun t' ht' => by cases ht'; exact ht
  | link ha hb hra hrb hab _ => exact link_formed hs ha hb hra hrb hab
  | poison _ hv => exact poison_formed hs hv

theorem Step.size_le (h : Step g p s s') (hs : s.Formed) : s.size ≤ s'.size := by
  cases h with
  | alike _ ha => rw [ha.size]
  | fresh rank hint => rw [fresh_size]; exact Nat.le_succ _
  | bind => rw [put_size]
  | link => rw [link_size]
  | poison _ hv => rw [poison_size hs.forest hv]

theorem Step.aliases_eq (h : Step g p s s') : s'.aliases = s.aliases := by
  cases h with
  | alike _ ha => exact ha.aliases
  | fresh => rfl
  | bind => rfl
  | link => rfl
  | poison => exact poison_aliases _ _

theorem Step.root_eq (h : Step g p s s') (hs : s.Formed) {w : Var} (hvw : s.root v = s.root w) :
    s'.root v = s'.root w := by
  cases h with
  | alike _ hal => rw [hal.root, hal.root, hvw]
  | fresh rank hint =>
    obtain ⟨_, hro, _⟩ := fresh_view hs.forest rank hint
    rw [hro, hro, hvw]
  | bind hr hroot _ _ _ =>
    obtain ⟨_, hro, _⟩ := put_view hs.forest hr hroot (.bound _)
    rw [hro, hro, hvw]
  | link ha hb hra hrb hab _ =>
    obtain ⟨_, hro, _⟩ := link_view hs.forest ha hb hra hrb hab
    rw [hro, hro, hvw]
  | poison _ hx =>
    obtain ⟨_, hro, _⟩ := poison_view hs.forest hx
    rw [hro, hro, hvw]

theorem Step.of_false (h : Step g false s s') : Step g p s s' := by
  cases h with
  | alike hf ha => exact .alike hf ha
  | fresh rank hint => exact .fresh rank hint
  | bind hr hroot hk ht hn => exact .bind hr hroot hk ht hn
  | link ha hb hra hrb hab hj => exact .link ha hb hra hrb hab hj
  | poison hp _ => cases hp

theorem Relinked.steps (h : Relinked s s') (hs : s.Forest) : Steps g p s s' :=
  .single (.alike (h.forest hs) (h.alike hs.linksEnd))

namespace Steps

theorem wellFormed (h : Steps g p s s') (hs : s.WellFormed) : s'.WellFormed := by
  induction h with
  | refl => exact hs
  | tail _ hstep ih => exact ⟨hstep.formed ih.toFormed, by rw [hstep.aliases_eq]; exact ih.usable⟩

theorem size_le (h : Steps g p s s') (hs : s.WellFormed) : s.size ≤ s'.size := by
  induction h with
  | refl => exact Nat.le_refl _
  | tail hsteps hstep ih => exact ih.trans (hstep.size_le (Steps.wellFormed hsteps hs).toFormed)

theorem aliases_eq (h : Steps g p s s') : s'.aliases = s.aliases := by
  induction h with
  | refl => rfl
  | tail _ hstep ih => rw [hstep.aliases_eq, ih]

theorem root_eq (h : Steps g p s s') (hs : s.WellFormed) {w : Var} (hvw : s.root v = s.root w) :
    s'.root v = s'.root w := by
  induction h with
  | refl => exact hvw
  | tail hsteps hstep ih => exact hstep.root_eq (Steps.wellFormed hsteps hs).toFormed ih

theorem of_false (h : Steps g false s s') : Steps g p s s' := by
  induction h with
  | refl => exact .refl
  | tail _ hstep ih => exact ih.tail hstep.of_false

end Steps

/-! ## Types over the store -/

/-- The record type of a row; where the row is spoiled, that of its known fields. -/
def rowType (row : Row) : Ty :=
  .record row.fields (match row.tail with
    | .opened v => some v
    | _ => none)

/-- The call is about types over a store of `n` variables. -/
def Call.Fits (n : Nat) : Call → Prop
  | .types l r => l.Fits n ∧ r.Fits n
  | .vars v w => v < n ∧ w < n
  | .var _ v t => v < n ∧ t.Fits n
  | .terms l r => l.Fits n ∧ r.Fits n
  | .rows rowL rowR l r =>
    (rowType rowL).Fits n ∧ (rowType rowR).Fits n ∧ l.Fits n ∧ r.Fits n
  | .tails v w _ onlyLeft onlyRight =>
    v < n ∧ w < n ∧ (Ty.record onlyLeft none).Fits n ∧ (Ty.record onlyRight none).Fits n

def Call.Over (V : Var → Prop) : Call → Prop
  | .types l r => l.Over V ∧ r.Over V
  | .vars v w => V v ∧ V w
  | .var _ v t => V v ∧ t.Over V
  | .terms l r => l.Over V ∧ r.Over V
  | .rows rowL rowR l r => (rowType rowL).Over V ∧ (rowType rowR).Over V ∧ l.Over V ∧ r.Over V
  | .tails v w _ onlyLeft onlyRight =>
    V v ∧ V w ∧ (Ty.record onlyLeft none).Over V ∧ (Ty.record onlyRight none).Over V

theorem Call.Fits.over (h : c.Fits n) : c.Over (· < n) := by cases c <;> exact h

theorem mem_rowType (hv : row.tail = .opened v) : v ∈ (rowType row).vars := by
  simp [rowType, hv]

theorem rowType_without {row' : Row} (h : (rowType row).Over V) (hext : ∀ v, ext = some v → V v) :
    (Ty.record (Assoc.without row.fields row'.fields) ext).Over V :=
  Ty.over_without h hext

theorem record_over_ext {ext' : Option Var} (h : (Ty.record fields ext).Over V)
    (hext : ∀ v, ext' = some v → V v) : (Ty.record fields ext').Over V := by
  obtain ⟨hs, hf, _⟩ := Ty.over_record.mp h
  exact Ty.over_record.mpr ⟨hs, hf, hext⟩

theorem row_over (hu : s.aliases.Usable) (hroot : ∀ v, V v → V (s.root v))
    (hbound : ∀ v t, V v → s.kind v = .bound t → t.Over V) {k : Nat}
    (h : s.row k fields ext = some row) (ht : (Ty.record fields ext).Over V) :
    (rowType row).Over V := by
  have hspoiled : ∀ {fields v}, (Ty.record fields (some v)).Over V →
      (rowType ⟨fields, .spoiled⟩).Over V := fun ht => record_over_ext ht (by simp)
  refine row_induction (motive := fun fields ext row => (Ty.record fields ext).Over V →
    (rowType row).Over V) (fun _ ht => ht) ?_ (fun _ _ _ ht => hspoiled ht) ?_
    (fun _ _ _ _ _ _ _ _ ht => hspoiled ht) h ht
  · intro fields v _ _ _ ht
    refine record_over_ext ht ?_
    rintro _ ⟨⟩
    exact hroot v ((Ty.over_record.mp ht).2.2 v rfl)
  · intro k fields v t more rest row hc hhead ih ht
    have hover := hbound v t ((Ty.over_record.mp ht).2.2 v rfl) (kind_eq_bound.mpr hc)
    exact ih (Ty.over_union ht (hu.head_settled hover hhead).1)

theorem mem_shared {fs gs : List (String × Ty)} {q : Ty × Ty} (h : q ∈ Assoc.shared fs gs) :
    ∃ k, (k, q.1) ∈ fs ∧ Assoc.get? gs k = some q.2 := by
  obtain ⟨⟨k, t⟩, hmem, hq⟩ := List.mem_filterMap.mp h
  obtain ⟨u, hu, rfl⟩ := Option.map_eq_some_iff.mp hq
  exact ⟨k, hmem, hu⟩

theorem shared_over {rowL rowR : Row} (hL : (rowType rowL).Over V) (hR : (rowType rowR).Over V) :
    ∀ q ∈ Assoc.shared rowL.fields rowR.fields, q.1.Over V ∧ q.2.Over V := by
  intro q hq
  obtain ⟨k, hl, hr⟩ := mem_shared hq
  exact ⟨(Ty.over_record.mp hL).2.1 _ hl, (Ty.over_record.mp hR).2.1 _ (Assoc.mem_of_get? hr)⟩

/-! ## What the parts of a call do -/

/-- The store that an outcome leaves comes from `s` by steps, without giving up a class if the
outcome is a success. -/
def After (g : Guard) (s : Store) : Outcome → Prop
  | .unified s' => Steps g false s s'
  | .failed _ s' => Steps g true s s'
  | .outOfFuel => True

theorem After.of_steps (h : Steps g false s s') (ho : After g s' o) : After g s o := by
  cases o with
  | unified _ => exact h.trans ho
  | failed _ _ => exact (Steps.of_false h).trans ho
  | outOfFuel => exact trivial

theorem merge_alike (h : s.Forest) (ha : a < s.size) (hb : b < s.size) (hra : s.root a = a)
    (hrb : s.root b = b) (hab : a ≠ b) (hk : s.kind b = .free) (rank : Rank)
    (hint : Option String) : ((s.link a b).put b (.unbound rank hint)).Forest ∧
      Alike (s.link a b) ((s.link a b).put b (.unbound rank hint)) := by
  obtain ⟨hf, hro, hco⟩ := link_view h ha hb hra hrb hab
  refine put_unbound_alike hf (by rw [link_size]; exact hb) ?_ ?_ rank hint
  · rw [hro, hrb, if_neg (Ne.symm hab)]
  · rw [kind, hco, hrb, if_neg (Ne.symm hab)]; exact hk

theorem reach_lt (h : s.Formed) (ht : t.Fits s.size) : ∀ v ∈ s.reach t, v < s.size := by
  intro v hv
  obtain ⟨w, hw, hr⟩ := (mem_reach h ht).mp hv
  exact hr.lt h (ht.lt hw)

theorem lowerRanks_reach (hs : s.Formed) (t : Ty) (rank : Rank) :
    (s.lowerRanks (s.reach t) rank).Forest ∧ Alike s (s.lowerRanks (s.reach t) rank) :=
  lowerRanks_alike hs.forest rank (s.reach t)

/-! ## Calls over the store -/

section Over

variable {V : Var → Prop}

theorem operands_over {l r : Ty} (hl : l.Over V) (hr : r.Over V) :
    ∀ q ∈ operands l r, q.1.Over V ∧ q.2.Over V := by
  intro q hq
  rw [operands.eq_def] at hq
  split at hq
  · obtain ⟨ha, hb⟩ := Ty.over_func.mp hl
    obtain ⟨hc, hd⟩ := Ty.over_func.mp hr
    rcases List.mem_pair.mp hq with rfl | rfl
    · exact ⟨ha, hc⟩
    · exact ⟨hb, hd⟩
  · split at hq
    · exact ⟨Ty.over_app.mp hl _ (List.of_mem_zip hq).1, Ty.over_app.mp hr _ (List.of_mem_zip hq).2⟩
    · cases hq
  · cases hq

theorem EndsInvoke.over {rowL rowR : Row} (h : EndsInvoke rowL rowR s c)
    (hL : (rowType rowL).Over V) (hR : (rowType rowR).Over V) : c.Over V := by
  cases h with
  | openLeft _ hv _ => exact ⟨hL.mem (mem_rowType hv), rowType_without hR nofun⟩
  | openRight _ _ hw => exact ⟨hR.mem (mem_rowType hw), rowType_without hL nofun⟩
  | openBoth _ hv hw _ =>
    exact ⟨hL.mem (mem_rowType hv), hR.mem (mem_rowType hw), rowType_without hL nofun,
      rowType_without hR nofun⟩

theorem Poses.over {c' : Call} (h : Poses s c c') (hu : s.aliases.Usable)
    (hroot : ∀ v, V v → V (s.root v)) (hbound : ∀ v t, V v → s.kind v = .bound t → t.Over V)
    (hc : c.Over V) : c'.Over V := by
  cases h with
  | varVar => exact ⟨Ty.over_var.mp hc.1, Ty.over_var.mp hc.2⟩
  | varLeft _ => exact ⟨Ty.over_var.mp hc.1, hc.2⟩
  | varRight _ => exact ⟨Ty.over_var.mp hc.2, hc.1⟩
  | noVar _ _ => exact hc
  | swapped => exact hc.symm
  | rootVars => exact ⟨hroot _ hc.1, hroot _ hc.2⟩
  | rootVar => exact ⟨hroot _ hc.1, hc.2⟩
  | join ha hb =>
    exact ⟨hbound _ _ hc.1 (kind_eq_bound.mpr ha), hbound _ _ hc.2 (kind_eq_bound.mpr hb)⟩
  | @bound side a t u ha =>
    have hu := hbound _ _ hc.1 (kind_eq_bound.mpr ha)
    cases side with
    | left => exact ⟨hu, hc.2⟩
    | right => exact ⟨hc.2, hu⟩
  | head hl hr => exact ⟨(hu.head_settled hc.1 hl).1, (hu.head_settled hc.2 hr).1⟩
  | operand hl hr hq =>
    exact operands_over (hu.head_settled hc.1 hl).1 (hu.head_settled hc.2 hr).1 _ hq
  | record hl hr hrowL hrowR =>
    have hl' := (hu.head_settled hc.1 hl).1
    have hr' := (hu.head_settled hc.2 hr).1
    exact ⟨row_over hu hroot hbound hrowL hl', row_over hu hroot hbound hrowR hr', hl', hr'⟩
  | field hq => exact shared_over hc.1 hc.2.1 _ hq
  | tail hends => exact hends.over hc.1 hc.2.1

end Over

/-! ## Steps of a run -/

/-- The call ended as `R` says; it started in a well-formed store, was about types over it, and
left it by steps. -/
structure Careful (g : Guard) (R : Call → Store → Outcome → Prop) (c : Call) (s : Store)
    (o : Outcome) : Prop where
  ends : R c s o
  wellFormed : s.WellFormed
  fits : c.Fits s.size
  after : After g s o

theorem Each.after {ps : List (Ty × Ty)} (h : Each (Careful g R) ps s o) : After g s o := by
  induction h with
  | nil => exact ReflTransGen.refl
  | cons h _ ih => exact ih.of_steps h.after
  | failed h => exact h.after

theorem Call.Fits.mono {m : Nat} (h : c.Fits m) (hle : m ≤ n) : c.Fits n := by
  cases c with
  | types => exact ⟨h.1.mono hle, h.2.mono hle⟩
  | vars => exact ⟨Nat.lt_of_lt_of_le h.1 hle, Nat.lt_of_lt_of_le h.2 hle⟩
  | var => exact ⟨Nat.lt_of_lt_of_le h.1 hle, h.2.mono hle⟩
  | terms => exact ⟨h.1.mono hle, h.2.mono hle⟩
  | rows => exact ⟨h.1.mono hle, h.2.1.mono hle, h.2.2.1.mono hle, h.2.2.2.mono hle⟩
  | tails =>
    exact ⟨Nat.lt_of_lt_of_le h.1 hle, Nat.lt_of_lt_of_le h.2.1 hle, h.2.2.1.mono hle,
      h.2.2.2.mono hle⟩

theorem steps_adopt (hs : s.WellFormed) (ha : a < s.size) (hb : b < s.size) (hra : s.root a = a)
    (hrb : s.root b = b) (hab : a ≠ b) (hkb : s.kind b = .bound t) (hn : a ∉ s.reach t)
    (rank : Rank) : Steps g false s ((s.lowerRanks (s.reach t) rank).link a b) := by
  obtain ⟨hf, hal⟩ := lowerRanks_reach hs.toFormed t rank
  have hnr := not_reaches_of_not_mem hs.toFormed hrb hab hkb hn
  refine ReflTransGen.tail (.single (.alike hf hal)) (.link ?_ ?_ ?_ ?_ hab (.inl ?_))
  · rw [hal.size]; exact ha
  · rw [hal.size]; exact hb
  · rw [hal.root]; exact hra
  · rw [hal.root]; exact hrb
  · rw [hal.reaches]; exact hnr

theorem steps_bind (hs : s.WellFormed) (ha : a < s.size) (ht : t.Fits s.size) (hra : s.root a = a)
    (hka : s.kind a = .free) (hn : a ∉ s.reach t) (rank : Rank) :
    Steps g false s ((s.lowerRanks (s.reach t) rank).put a (.bound t)) := by
  obtain ⟨hf, hal⟩ := lowerRanks_reach hs.toFormed t rank
  have ht' : t.Fits (s.lowerRanks (s.reach t) rank).size := by rw [hal.size]; exact ht
  refine ReflTransGen.tail (.single (.alike hf hal)) (.bind ?_ ?_ ?_ ht' ?_)
  · rw [hal.size]; exact ha
  · rw [hal.root]; exact hra
  · rw [hal.kind]; exact hka
  · rw [mem_reach (hal.formed hf hs.toFormed) ht']
    rw [mem_reach hs.toFormed ht] at hn
    simpa only [hal.reaches] using hn

theorem Poses.fits {c' : Call} (h : Poses s c c') (hs : s.WellFormed) (hc : c.Fits s.size) :
    c'.Fits s.size := by
  have hover := h.over (V := (· < s.size)) hs.usable (fun _ => hs.forest.root_lt)
    (fun v t _ hk => hs.fits v t hk) hc.over
  cases c' <;> exact hover

theorem Call.Fits.rest {v w : Var} {rank : Rank} {onlyLeft onlyRight : List (String × Ty)}
    (h : (Call.tails v w rank onlyLeft onlyRight).Fits s.size) :
    (Call.var .left v (.record onlyRight (some s.size))).Fits (s.fresh rank none).2.size ∧
      (Call.var .right w (.record onlyLeft (some s.size))).Fits (s.fresh rank none).2.size := by
  obtain ⟨hv, hw, hleft, hright⟩ := h
  rw [fresh_size]
  have hrest : ∀ x, some s.size = some x → x < s.size + 1 := by
    rintro x ⟨⟩
    exact Nat.lt_succ_self _
  exact ⟨⟨Nat.lt_succ_of_lt hv, record_over_ext (hright.mono (Nat.le_succ _)) hrest⟩,
    Nat.lt_succ_of_lt hw, record_over_ext (hleft.mono (Nat.le_succ _)) hrest⟩

/-- A call over a well-formed store leaves it by steps. -/
theorem after_tracker (g : Guard) (R : Call → Store → Outcome → Prop) :
    Tracker g R (fun (_ : Unit) c s => s.WellFormed ∧ c.Fits s.size) fun _ => After g where
  forest hc := hc.1.forest
  lt hc := hc.2.1
  lt' hc := hc.2.1
  poses hc h := ⟨hc.1, h.fits hc.1 hc.2⟩
  next {_ s s'} h := by
    have hsteps : Steps g false s s' := h
    exact ⟨(), fun c hc => ⟨hsteps.wellFormed hc.1, hc.2.mono (hsteps.size_le hc.1)⟩,
      fun o ho => ho.of_steps hsteps⟩
  refl _ := ReflTransGen.refl
  found hc hv h := by
    obtain ⟨-, hf, hal, -⟩ := find_spec hc.1.forest hv h
    exact .single (.alike hf hal)
  mismatch _ := ReflTransGen.refl
  poison {_ c s v m s'} hc hv h := by
    have hsteps : Steps g true s s' := h
    exact hsteps.tail (.poison rfl (Nat.lt_of_lt_of_le hv (hsteps.size_le hc.1)))
  rest {_ v w rank onlyLeft onlyRight s} hc := by
    have hsteps : Steps g false s (s.fresh rank none).2 := .single (.fresh rank none)
    obtain ⟨hleft, hright⟩ := hc.2.rest
    exact ⟨(), ⟨hsteps.wellFormed hc.1, hleft⟩, ⟨hsteps.wellFormed hc.1, hright⟩,
      fun o ho => ho.of_steps hsteps⟩
  under hc hra hrb hab hcb := by
    refine .single (.link hc.2.1 hc.2.2 hra hrb hab (.inl ?_))
    exact not_reaches_of_kind hrb hab fun t ht => by rw [kind_eq_bound, hcb] at ht; cases ht
  merge hc hra hrb hab hca hcb := by
    have hkb := kind_eq_free.mpr ⟨_, _, hcb⟩
    obtain ⟨hf, hal⟩ := merge_alike hc.1.forest hc.2.1 hc.2.2 hra hrb hab hkb _ _
    have hn := not_reaches_of_kind hrb hab (by simp [hkb])
    exact ReflTransGen.tail (.single (.link hc.2.1 hc.2.2 hra hrb hab (.inl hn))) (.alike hf hal)
  adopt hc hra hrb hab _ hcb hn :=
    steps_adopt hc.1 hc.2.1 hc.2.2 hra hrb hab (kind_eq_bound.mpr hcb) hn _
  bind hc hra hca hn := steps_bind hc.1 hc.2.1 hc.2.2 hra (kind_eq_free.mpr ⟨_, _, hca⟩) hn _
  join {_ a b s l r s1 s2} hc _ _ _ h _ _ hne hguard := by
    have hsteps : Steps g false s s2 := h
    have hf := (hsteps.wellFormed hc.1).forest
    have hle := hsteps.size_le hc.1
    exact hsteps.tail (.link (hf.root_lt (Nat.lt_of_lt_of_le hc.2.1 hle))
      (hf.root_lt (Nat.lt_of_lt_of_le hc.2.2 hle)) (hf.root_root a) (hf.root_root b) hne
      (.inr hguard))

theorem rule_careful (hR : ∀ c s o, R c s o → s.WellFormed → c.Fits s.size → After g s o)
    (h : Rule g R c s o) (hs : s.WellFormed) (hc : c.Fits s.size) :
    Rule g (Careful g R) c s o ∧ After g s o := by
  have htracked := after_tracker g R
  refine ⟨h.map (fun _ _ _ h => h) (fun _ _ _ h => h) fun c' s' o' hinvokes h' => ?_,
    h.tracked htracked (x := ()) (fun h hc => hR _ _ _ h hc.1 hc.2) ⟨hs, hc⟩⟩
  obtain ⟨_, ⟨hs', hc'⟩, _⟩ :=
    hinvokes.tracked htracked (x := ()) (fun h hc => hR _ _ _ h hc.1 hc.2) ⟨hs, hc⟩
  exact ⟨h', hs', hc', hR _ _ _ h' hs' hc'⟩

/-! ## Runs -/

/-- The call ends with this outcome by rules that are nested at most `n` deep. -/
def Runs (g : Guard) : Nat → Call → Store → Outcome → Prop
  | 0 => fun _ _ _ => False
  | n + 1 => Rule g (Runs g n)

theorem Runs.relax {g' : Guard} (hjoin : ∀ s a b, g.join s a b → g'.join s a b)
    (hskip : ∀ s l r, g.skip s l r → g'.skip s l r) (h : Runs g n c s o) : Runs g' n c s o := by
  induction n generalizing c s o with
  | zero => exact h
  | succ n ih => exact Rule.map hjoin hskip h fun _ _ _ _ h => ih h

/-- A call that did not run out of fuel is a run. -/
theorem runs_of_ran (h : Ran n c s o) : Runs .any n c s o := by
  induction n generalizing c s o with
  | zero => obtain ⟨h, ho⟩ := h; cases c <;> exact absurd h.symm ho
  | succ n ih => exact (rule_of_run h).mono fun _ _ _ h => ih h

namespace Runs

variable {n : Nat} {c : Call} {o : Outcome}

/-- A run is what the unifier does with enough fuel. -/
theorem completes (h : Runs g n c s o) : Completes c s o := by
  induction n generalizing c s o with
  | zero => cases h
  | succ n ih => exact .of_rule (h.mono fun _ _ _ h => ih h)

/-- What the rules keep track of holds of all runs. -/
theorem tracked {γ : Type} {P : γ → Call → Store → Prop} {E : γ → Store → Outcome → Prop}
    (T : ∀ n, Tracker g (Runs g n) P E) {x : γ} (h : Runs g n c s o) (hc : P x c s) : E x s o := by
  induction n generalizing x c s o with
  | zero => cases h
  | succ n ih => exact Rule.tracked (T n) ih h hc

theorem after (h : Runs g n c s o) (hs : s.WellFormed) (hc : c.Fits s.size) : After g s o :=
  h.tracked (fun n => after_tracker g (Runs g n)) (x := ()) ⟨hs, hc⟩

variable {Q : Call → Store → Outcome → Prop}

theorem run_induction (step : ∀ c s o, s.WellFormed → c.Fits s.size →
      Rule g (Careful g fun c s o => (∃ n, Runs g n c s o) ∧ Q c s o) c s o → Q c s o)
    (h : Runs g n c s o) (hs : s.WellFormed) (hc : c.Fits s.size) : Q c s o := by
  induction n generalizing c s o with
  | zero => cases h
  | succ n ih =>
    have hrule := (rule_careful (fun _ _ _ h hs hc => h.after hs hc) h hs hc).1
    refine step c s o hs hc (hrule.mono fun c s o h => ?_)
    exact ⟨⟨⟨n, h.ends⟩, ih h.ends h.wellFormed h.fits⟩, h.wellFormed, h.fits, h.after⟩

theorem rule_induction
    (step : ∀ c s o, s.WellFormed → c.Fits s.size → Rule g (Careful g Q) c s o → Q c s o)
    (h : Runs g n c s o) (hs : s.WellFormed) (hc : c.Fits s.size) : Q c s o :=
  h.run_induction (fun c s o hs hc hrule => step c s o hs hc
    (hrule.mono fun _ _ _ h => { h with ends := h.ends.2 })) hs hc

end Runs

/-- With fuel `n`, the call keeps to the guard in the steps that are not checked. -/
def Call.Keeps (c : Call) (g : Guard) (n : Nat) (s : Store) : Prop :=
  ∀ o, Runs .any n c s o → Runs g n c s o

theorem Call.Keeps.runs (h : c.Keeps g n s) (hrun : c.run n s = o) (ho : o ≠ .outOfFuel) :
    Runs g n c s o :=
  h o (runs_of_ran ⟨hrun, ho⟩)

theorem Runs.keeps (h : Runs g n c s o) : c.Keeps g n s := by
  intro o' h'
  obtain ⟨k, hk, hk'⟩ := (EnoughFuel.and h.completes h'.completes).exists_fuel
  rwa [← hk', hk]

/-! ## Histories -/

/-- One call from outside: a variable is made, or two types or two variables are unified. The
types are over the store, and `P` holds of them. -/
inductive Use (g : Guard) (P : Ty → Prop) (s : Store) : Outcome → Prop where
  | fresh (rank : Rank) (hint : Option String) : Use g P s (.unified (s.fresh rank hint).2)
  | unify {n : Nat} {l r : Ty} {o : Outcome} : l.Fits s.size → r.Fits s.size → P l → P r →
      unify n l r s = o → o ≠ .outOfFuel → (Call.types l r).Keeps g n s → Use g P s o
  | unifyVars {n : Nat} {v w : Var} {o : Outcome} : v < s.size → w < s.size →
      unifyVars n v w s = o → o ≠ .outOfFuel → (Call.vars v w).Keeps g n s → Use g P s o

/-- The store `s` comes from the empty store with these aliases by calls from outside; they all
succeeded, unless `mayFail`. -/
inductive History (g : Guard) (P : Ty → Prop) (mayFail : Bool) (table : AliasTable)
    (compress : Bool) : Store → Prop where
  | start : History g P mayFail table compress { aliases := table, compress := compress }
  | unified {s s' : Store} : History g P mayFail table compress s → Use g P s (.unified s') →
      History g P mayFail table compress s'
  | failed {s s' : Store} {m : Mismatch} : mayFail = true →
      History g P mayFail table compress s → Use g P s (.failed m s') →
      History g P mayFail table compress s'

theorem Use.after (h : Use g P s o) (hs : s.WellFormed) : After g s o := by
  cases h with
  | fresh rank hint => exact .single (.fresh rank hint)
  | unify hl hr _ _ h ho hkeeps => exact (hkeeps.runs h ho).after hs ⟨hl, hr⟩
  | unifyVars hv hw h ho hkeeps => exact (hkeeps.runs h ho).after hs ⟨hv, hw⟩

theorem wellFormed_empty {table : AliasTable} (hu : table.Usable) (compress : Bool) :
    ({ aliases := table, compress := compress } : Store).WellFormed := by
  refine ⟨⟨forest_empty table compress, fun v t ht => ?_⟩, hu⟩
  cases ht

namespace History

variable {P : Ty → Prop} {mayFail : Bool} {table : AliasTable} {compress : Bool}

theorem steps (hu : table.Usable) (h : History g P mayFail table compress s) :
    s.WellFormed ∧ Steps g mayFail { aliases := table, compress := compress } s := by
  induction h with
  | start => exact ⟨wellFormed_empty hu compress, .refl⟩
  | unified _ huse ih =>
    obtain ⟨hs, hsteps⟩ := ih
    have hafter : Steps g false _ _ := huse.after hs
    exact ⟨hafter.wellFormed hs, hsteps.trans (Steps.of_false hafter)⟩
  | failed hfail _ huse ih =>
    obtain ⟨hs, hsteps⟩ := ih
    have hafter : Steps g true _ _ := huse.after hs
    subst hfail
    exact ⟨hafter.wellFormed hs, hsteps.trans hafter⟩

end History

/-- A store of `n` unbound variables. -/
def blank (table : AliasTable) : Nat → Store
  | 0 => { aliases := table, compress := true }
  | n + 1 => ((blank table n).fresh 0 none).2

theorem history_blank {mayFail : Bool} (table : AliasTable) (n : Nat) :
    History g P mayFail table true (blank table n) := by
  induction n with
  | zero => exact .start
  | succ n ih => exact .unified ih (.fresh 0 none)

theorem blank_view (table : AliasTable) (n : Nat) : (blank table n).Forest ∧
    (blank table n).size = n ∧ ∀ v, (blank table n).kind v = if v < n then .free else .poisoned := by
  induction n with
  | zero =>
    refine ⟨forest_empty table true, rfl, fun v => ?_⟩
    rw [if_neg (Nat.not_lt_zero v), kind_eq_poisoned]
    exact (Forest.root_of_size_le (Nat.zero_le v)).2
  | succ n ih =>
    obtain ⟨hf, hsize, hkind⟩ := ih
    obtain ⟨hf', _, hc⟩ := fresh_view hf 0 none
    refine ⟨hf', by rw [blank, fresh_size, hsize], fun v => ?_⟩
    rw [blank, kind, hc, hsize]
    split
    · rename_i hv; rw [hv, if_pos (Nat.lt_succ_self n)]; rfl
    · rename_i hv
      have hiff : v < n + 1 ↔ v < n := by rw [Nat.lt_succ_iff_lt_or_eq]; simp [hv]
      rw [← kind, hkind]
      simp only [hiff]

theorem blank_not_bound (table : AliasTable) (n : Nat) (v : Var) (t : Ty) :
    (blank table n).kind v ≠ .bound t := by
  rw [(blank_view table n).2.2]
  split <;> simp

theorem formed_blank (table : AliasTable) (n : Nat) : (blank table n).Formed :=
  ⟨(blank_view table n).1, fun v t hk => absurd hk (blank_not_bound table n v t)⟩

theorem acyclic_blank (table : AliasTable) (n : Nat) : (blank table n).Acyclic := by
  intro r hr
  obtain ⟨_, ⟨t, ht, _⟩, _⟩ := TransGen.head'_iff.mp hr
  exact blank_not_bound table n r t ht

def boxes : Environment := { aliases := [("Box", ⟨["a"], .record [("y", .var "a")] none⟩)] }

theorem boxes_ordered : boxes.Ordered := by
  intro e he
  obtain rfl := List.mem_singleton.mp he
  refine .record (by simp [Assoc.Sorted, Assoc.keys]) fun f hf => ?_
  obtain rfl := List.mem_singleton.mp hf
  exact .var

theorem boxes_aliasTable : boxes.aliasTable = .ok boxes.aliases := rfl

end Store
end TypeSolver
