import TypeSolver.Proofs.Calls
import TypeSolver.Proofs.Equations
import TypeSolver.Proofs.Kinds

/-!
# TypeSolver.Proofs.Placed

Stores in which every variable has a place. A class stands for a type that may stand where its
variables do, and no class was given up; so where places are told apart, what stands behind the
fields of a record is open or a record (`Placed.row`). A call of the unifier that succeeds keeps
that, and all the calls that it makes are about types that may stand where they are compared
(`placed_tracker`).
-/

namespace TypeSolver

abbrev Ty.Stands (K : Kinds) (place : Var → Place) (n : Nat) (p : Place) (t : Ty) : Prop :=
  t.Kinded K (K.Standing place n) p

namespace Store

/-- No class was given up. All variables of a class may stand at one place, and there the type may
stand that the class is bound to. -/
structure Placed (K : Kinds) (place : Var → Place) (s : Store) : Prop where
  forest : s.Forest
  healthy : s.Healthy
  root : ∀ v, v < s.size → K.Same (place v) (place (s.root v))
  bound : ∀ v t, s.kind v = .bound t →
    (K.strict → t.isVar = false) ∧ t.Stands K place s.size (place v)
  table : s.aliases.Kinded K

/-- From one store to the other variables were added, and all that were there kept their places. The
aliases are the same. -/
structure Grows (K : Kinds) (place : Var → Place) (s : Store) (place' : Var → Place)
    (s' : Store) : Prop where
  size_le : s.size ≤ s'.size
  old : ∀ v, v < s.size → place' v = place v
  aliases : s'.aliases = s.aliases
  placed : s'.Placed K place'

variable {K : Kinds} {place place' place'' : Var → Place} {s s' s'' : Store} {p : Place} {t : Ty}

theorem Grows.refl (h : s.Placed K place) : Grows K place s place s :=
  ⟨le_rfl, fun _ _ => rfl, rfl, h⟩

theorem Grows.trans (h : Grows K place s place' s') (h' : Grows K place' s' place'' s'') :
    Grows K place s place'' s'' :=
  ⟨h.size_le.trans h'.size_le,
    fun v hv => (h'.old v (hv.trans_le h.size_le)).trans (h.old v hv),
    h'.aliases.trans h.aliases, h'.placed⟩

theorem Grows.standing (h : Grows K place s place' s') {v : Var}
    (hv : K.Standing place s.size v p) : K.Standing place' s'.size v p :=
  ⟨hv.1.trans_le h.size_le, by rw [h.old v hv.1]; exact hv.2⟩

theorem Grows.stands (h : Grows K place s place' s') (ht : t.Stands K place s.size p) :
    t.Stands K place' s'.size p :=
  ht.mono fun _ _ _ hv => h.standing hv

namespace Placed

variable (h : s.Placed K place)

include h

theorem standing_root {v : Var} (hv : K.Standing place s.size v p) :
    K.Standing place s.size (s.root v) p :=
  ⟨h.forest.root_lt hv.1, (h.root v hv.1).symm.trans hv.2⟩

theorem alike (hf : s'.Forest) (ha : Alike s s') : Grows K place s place s' := by
  refine ⟨ha.size.ge, fun _ _ => rfl, ha.aliases, hf, ha.healthy h.healthy, fun v hv => ?_,
    fun v t ht => ?_, ?_⟩
  · rw [ha.root]; exact h.root v (by rwa [ha.size] at hv)
  · rw [ha.size]; exact h.bound v t (by rw [← ha.kind]; exact ht)
  · rw [ha.aliases]; exact h.table

theorem link {a b : Var} (ha : a < s.size) (hb : b < s.size) (hra : s.root a = a)
    (hrb : s.root b = b) (hab : a ≠ b) (hp : K.Same (place a) (place b)) :
    Grows K place s place (s.link a b) := by
  obtain ⟨hf, hro, _⟩ := link_view h.forest ha hb hra hrb hab
  have hclass : ∀ v, v < s.size → s.root v = a → K.Same (place v) (place b) := fun v hv hva =>
    (hva ▸ h.root v hv).trans hp
  refine ⟨(link_size ..).ge, fun _ _ => rfl, rfl, hf, h.healthy.link h.forest ha hb hra hrb hab,
    fun v hv => ?_, fun v t ht => ?_, h.table⟩
  · rw [link_size] at hv
    rw [hro]
    split
    · rename_i hva; exact hclass v hv hva
    · exact h.root v hv
  · have hv : v < s.size := by rw [← link_size s a b]; exact lt_of_kind (by rw [ht]; simp)
    rw [link_kind h.forest ha hb hra hrb hab] at ht
    rw [link_size]
    split at ht
    · rename_i hva
      obtain ⟨hnv, hst⟩ := h.bound b t ht
      exact ⟨hnv, hst.of_same Kinds.respects_standing (hclass v hv hva).symm⟩
    · exact h.bound v t ht

theorem bind {r : Var} (hr : r < s.size) (hroot : s.root r = r) (hnv : t.isVar = false)
    (ht : t.Stands K place s.size (place r)) : Grows K place s place (s.put r (.bound t)) := by
  obtain ⟨hf, hro, hc⟩ := put_view h.forest hr hroot (.bound t)
  refine ⟨(put_size ..).ge, fun _ _ => rfl, rfl, hf, h.healthy.put_bound h.forest hr hroot t,
    fun v hv => ?_, fun v u hu => ?_, h.table⟩
  · rw [hro]; exact h.root v (by rwa [put_size] at hv)
  · have hv : v < s.size := by
      rw [← put_size s r (.bound t)]; exact lt_of_kind (by rw [hu]; simp)
    rw [kind_eq_bound, hc] at hu
    rw [put_size]
    split at hu
    · rename_i hvr
      cases hu
      exact ⟨fun _ => hnv, ht.of_same Kinds.respects_standing (hvr ▸ h.root v hv).symm⟩
    · exact h.bound v u (kind_eq_bound.mpr hu)

theorem fresh (rank : Rank) (hint : Option String) (p : Place) :
    Grows K place s (Function.update place s.size p) (s.fresh rank hint).2 := by
  obtain ⟨hf, hro, hc⟩ := fresh_view h.forest rank hint
  have hold : ∀ v, v < s.size → Function.update place s.size p v = place v :=
    fun v hv => Function.update_of_ne (Nat.ne_of_lt hv) _ _
  have hle : s.size ≤ (s.fresh rank hint).2.size := by rw [fresh_size]; exact Nat.le_succ _
  refine ⟨hle, hold, rfl, hf, h.healthy.fresh h.forest rank hint, fun v hv => ?_, fun v t ht => ?_,
    h.table⟩
  · rw [hro]
    rw [fresh_size] at hv
    rcases Nat.lt_succ_iff_lt_or_eq.mp hv with hv | rfl
    · rw [hold v hv, hold _ (h.forest.root_lt hv)]; exact h.root v hv
    · rw [(Forest.root_of_size_le le_rfl).1]; exact .refl
  · rw [kind_eq_bound, hc] at ht
    split at ht
    · cases ht
    · have hk := kind_eq_bound.mpr ht
      have hv : v < s.size := lt_of_kind (by rw [hk]; simp)
      obtain ⟨hnv, hst⟩ := h.bound v t hk
      rw [hold v hv]
      exact ⟨hnv, hst.mono fun w _ q hw =>
        ⟨hw.1.trans_le hle, by rw [hold w hw.1]; exact hw.2⟩⟩

end Placed

end Store

/-- The fields of the row are types, and what follows them may do so. Where places are told apart,
nothing is spoiled. -/
def Row.Stands (K : Kinds) (place : Var → Place) (n : Nat) (row : Row) : Prop :=
  (∀ f ∈ row.fields, f.2.Stands K place n .type) ∧
    match row.tail with
    | .closed => True
    | .opened v => K.Standing place n v .row
    | .spoiled => ¬ K.strict

namespace Store

variable {K : Kinds} {place place' : Var → Place} {s s' : Store} {p : Place} {t : Ty}

theorem Grows.row (h : Grows K place s place' s') {row : Row} (hrow : row.Stands K place s.size) :
    row.Stands K place' s'.size := by
  refine ⟨fun f hf => h.stands (hrow.1 f hf), ?_⟩
  have htail := hrow.2
  split
  · exact .intro
  · rename_i v hv; rw [hv] at htail; exact h.standing htail
  · rename_i hv; rw [hv] at htail; exact htail

/-- The row of a record stands where the record does. -/
theorem Placed.row (h : s.Placed K place) {k : Nat} {fields : List (String × Ty)}
    {ext : Option Var} {row : Row} (hrow : s.row k fields ext = some row)
    (ht : (Ty.record fields ext).Stands K place s.size p) : row.Stands K place s.size := by
  refine row_induction (motive := fun fields ext row => ∀ p,
    (Ty.record fields ext).Stands K place s.size p → row.Stands K place s.size)
    (fun fields p ht => ⟨(Ty.kinded_record.mp ht).1, .intro⟩) ?_ ?_ ?_ ?_ hrow p ht
  · intro fields v _ _ _ p ht
    obtain ⟨hfields, hext⟩ := Ty.kinded_record.mp ht
    exact ⟨hfields, h.standing_root (hext v rfl)⟩
  · intro fields v hc p ht
    exact absurd (kind_eq_poisoned.mpr hc) (h.healthy v ((Ty.kinded_record.mp ht).2 v rfl).1)
  · intro k fields v t more rest row hc hhead ih p ht
    obtain ⟨hfields, hext⟩ := Ty.kinded_record.mp ht
    have hrest := (h.bound v t (kind_eq_bound.mpr hc)).2.of_same Kinds.respects_standing
      (hext v rfl).2
    exact ih p (Ty.kinded_union hfields (h.table.head Kinds.respects_standing hrest hhead))
  · intro k fields v t hd hc hhead hother p ht
    obtain ⟨hfields, hext⟩ := Ty.kinded_record.mp ht
    obtain ⟨hnv, hst⟩ := h.bound v t (kind_eq_bound.mpr hc)
    refine ⟨hfields, fun hK => ?_⟩
    obtain ⟨more, rest, rfl⟩ :=
      (hst.of_same Kinds.respects_standing (hext v rfl).2).exists_record hK (hnv hK)
    cases k with
    | zero => cases hhead
    | succ k => exact hother more rest (Option.some.inj hhead).symm

/-- The call is about types that may stand where they are compared. -/
def Call.Stands (K : Kinds) (place : Var → Place) (n : Nat) : Call → Prop
  | .types l r => ∃ p, l.Stands K place n p ∧ r.Stands K place n p
  | .vars v w => v < n ∧ w < n ∧ K.Same (place v) (place w)
  | .var _ v t => v < n ∧ t.isVar = false ∧ t.Stands K place n (place v)
  | .terms l r => ∃ p, l.Stands K place n p ∧ r.Stands K place n p
  | .rows rowL rowR _ _ => rowL.Stands K place n ∧ rowR.Stands K place n
  | .tails v w _ onlyLeft onlyRight => K.Standing place n v .row ∧ K.Standing place n w .row ∧
      (∀ f ∈ onlyLeft, f.2.Stands K place n .type) ∧ ∀ f ∈ onlyRight, f.2.Stands K place n .type

theorem Placed.terms_of_bound (h : s.Placed K place) {a b : Var} {l r : Ty}
    (ha : s.content a = .bound l) (hb : s.content b = .bound r) (hp : K.Same (place a) (place b)) :
    (Call.terms l r).Stands K place s.size :=
  ⟨place a, (h.bound a l (kind_eq_bound.mpr ha)).2,
    (h.bound b r (kind_eq_bound.mpr hb)).2.of_same Kinds.respects_standing hp.symm⟩

theorem Grows.call (h : Grows K place s place' s') {c : Call} (hc : c.Stands K place s.size) :
    c.Stands K place' s'.size := by
  have hlt : ∀ {v}, v < s.size → v < s'.size := fun hv => hv.trans_le h.size_le
  cases c with
  | types | terms => exact hc.imp fun _ hlr => ⟨h.stands hlr.1, h.stands hlr.2⟩
  | vars v w => exact ⟨hlt hc.1, hlt hc.2.1, by rw [h.old v hc.1, h.old w hc.2.1]; exact hc.2.2⟩
  | var side v t => exact ⟨hlt hc.1, hc.2.1, by rw [h.old v hc.1]; exact h.stands hc.2.2⟩
  | rows => exact ⟨h.row hc.1, h.row hc.2⟩
  | tails =>
    exact ⟨h.standing hc.1, h.standing hc.2.1, fun f hf => h.stands (hc.2.2.1 f hf),
      fun f hf => h.stands (hc.2.2.2 f hf)⟩

variable {n : Nat} {rowL rowR : Row} {c : Call}

theorem operands_stand {l r : Ty} (hl : l.Stands K place n p) (hr : r.Stands K place n p) :
    ∀ q ∈ operands l r, (Call.types q.1 q.2).Stands K place n := by
  intro q hq
  rw [operands.eq_def] at hq
  split at hq
  · obtain ⟨_, ha, hb⟩ := Ty.kinded_func.mp hl
    obtain ⟨_, hc, hd⟩ := Ty.kinded_func.mp hr
    rcases List.mem_pair.mp hq with rfl | rfl
    · exact ⟨.type, ha, hc⟩
    · exact ⟨.type, hb, hd⟩
  · split at hq
    · rename_i heq
      obtain ⟨rfl, hlen⟩ := heq
      obtain ⟨i, hi⟩ := List.getElem?_of_mem hq
      obtain ⟨hai, hbi⟩ := List.getElem?_zip_eq_some.mp hi
      exact ⟨_, (Ty.kinded_app.mp hl).2 i _ hai, hlen ▸ (Ty.kinded_app.mp hr).2 i _ hbi⟩
    · cases hq
  · cases hq

theorem shared_stand (hL : rowL.Stands K place n) (hR : rowR.Stands K place n) :
    ∀ q ∈ Assoc.shared rowL.fields rowR.fields, (Call.types q.1 q.2).Stands K place n := by
  intro q hq
  obtain ⟨k, hl, hr⟩ := mem_shared hq
  exact ⟨.type, hL.1 _ hl, hR.1 _ (Assoc.mem_of_get? hr)⟩

theorem without_stand {row row' : Row} (h : row.Stands K place n) :
    ∀ f ∈ Assoc.without row.fields row'.fields, f.2.Stands K place n .type :=
  fun f hf => h.1 f (List.mem_filter.mp hf).1

theorem EndsInvoke.stands (h : EndsInvoke rowL rowR s c) (hL : rowL.Stands K place n)
    (hR : rowR.Stands K place n) : c.Stands K place n := by
  have hleft := hL.2
  have hright := hR.2
  cases h with
  | openLeft _ hv _ =>
    rw [hv] at hleft
    exact ⟨hleft.1, rfl, .record (without_stand hR) (by rintro _ ⟨⟩)⟩
  | openRight _ _ hw =>
    rw [hw] at hright
    exact ⟨hright.1, rfl, .record (without_stand hL) (by rintro _ ⟨⟩)⟩
  | openBoth _ hv hw _ =>
    rw [hv] at hleft
    rw [hw] at hright
    exact ⟨hleft, hright, without_stand hL, without_stand hR⟩

theorem Poses.stands {c c' : Call} (h : Poses s c c') (hs : s.Placed K place)
    (hc : c.Stands K place s.size) : c'.Stands K place s.size := by
  cases h with
  | varVar =>
    obtain ⟨p, hv, hw⟩ := hc
    obtain ⟨hv, hvp⟩ := Ty.kinded_var.mp hv
    obtain ⟨hw, hwp⟩ := Ty.kinded_var.mp hw
    exact ⟨hv, hw, hvp.trans hwp.symm⟩
  | varLeft hnv =>
    obtain ⟨p, hv, ht⟩ := hc
    obtain ⟨hv, hvp⟩ := Ty.kinded_var.mp hv
    exact ⟨hv, hnv, ht.of_same Kinds.respects_standing hvp.symm⟩
  | varRight hnv =>
    obtain ⟨p, ht, hw⟩ := hc
    obtain ⟨hw, hwp⟩ := Ty.kinded_var.mp hw
    exact ⟨hw, hnv, ht.of_same Kinds.respects_standing hwp.symm⟩
  | noVar => exact hc
  | swapped => exact ⟨hc.2.1, hc.1, hc.2.2.symm⟩
  | @rootVars v w =>
    obtain ⟨hv, hw, hvw⟩ := hc
    exact ⟨hs.forest.root_lt hv, hs.forest.root_lt hw,
      ((hs.root v hv).symm.trans hvw).trans (hs.root w hw)⟩
  | @rootVar _ v t =>
    obtain ⟨hv, hnv, ht⟩ := hc
    exact ⟨hs.forest.root_lt hv, hnv, ht.of_same Kinds.respects_standing (hs.root v hv)⟩
  | join ha hb => exact hs.terms_of_bound ha hb hc.2.2
  | @bound side a t u ha =>
    have hu := (hs.bound a u (kind_eq_bound.mpr ha)).2
    cases side with
    | left => exact ⟨_, hu, hc.2.2⟩
    | right => exact ⟨_, hc.2.2, hu⟩
  | head hl hr =>
    obtain ⟨p, hsl, hsr⟩ := hc
    exact ⟨p, hs.table.head Kinds.respects_standing hsl hl,
      hs.table.head Kinds.respects_standing hsr hr⟩
  | operand hl hr hq =>
    obtain ⟨p, hsl, hsr⟩ := hc
    exact operands_stand (hs.table.head Kinds.respects_standing hsl hl)
      (hs.table.head Kinds.respects_standing hsr hr) _ hq
  | record hl hr hrowL hrowR =>
    obtain ⟨p, hsl, hsr⟩ := hc
    exact ⟨hs.row hrowL (hs.table.head Kinds.respects_standing hsl hl),
      hs.row hrowR (hs.table.head Kinds.respects_standing hsr hr)⟩
  | field hq => exact shared_stand hc.1 hc.2 _ hq
  | tail hends => exact hends.stands hc.1 hc.2

theorem Placed.adopt (hs : s.Placed K place) {rank : Rank} (become : Store → Store)
    (hbecome : ∀ {s1 : Store}, Alike s s1 → s1.Placed K place → Grows K place s1 place (become s1)) :
    Grows K place s place (become (s.lowerRanks (s.reach t) rank)) := by
  obtain ⟨hf, hal⟩ := lowerRanks_alike hs.forest rank (s.reach t)
  have hg := hs.alike hf hal
  exact hg.trans (hbecome hal hg.placed)

theorem placed_tracker (R : Call → Store → Outcome → Prop) :
    Tracker .any R (fun place c s => s.Placed K place ∧ c.Stands K place s.size)
      fun place s o => ∀ s', o = .unified s' → ∃ place', Grows K place s place' s' where
  forest hc := hc.1.forest
  lt hc := hc.2.1
  lt' hc := hc.2.1
  poses hc h := ⟨hc.1, h.stands hc.1 hc.2⟩
  next h := by
    obtain ⟨place', hg⟩ := h _ rfl
    exact ⟨place', fun c hc => ⟨hg.placed, hg.call hc.2⟩, fun o ho s' hs' =>
      (ho s' hs').imp fun _ => hg.trans⟩
  refl hc := by
    rintro _ ⟨⟩
    exact ⟨_, .refl hc.1⟩
  found hc hv hfind := by
    rintro _ ⟨⟩
    obtain ⟨-, hf, hal, -⟩ := find_spec hc.1.forest hv hfind
    exact ⟨_, hc.1.alike hf hal⟩
  mismatch _ := nofun
  poison _ _ _ := nofun
  rest {place v w rank onlyLeft onlyRight s} hc := by
    obtain ⟨hs, hv, hw, hleft, hright⟩ := hc
    have hg := hs.fresh rank none .row
    have hrest : K.Standing (Function.update place s.size .row) (s.fresh rank none).2.size s.size
        .row :=
      ⟨by rw [fresh_size]; exact Nat.lt_succ_self _, by rw [Function.update_self]; exact .refl⟩
    have hrec : ∀ {fields : List (String × Ty)}, (∀ f ∈ fields, f.2.Stands K place s.size .type) →
        ∀ p, (Ty.record fields (some s.size)).Stands K (Function.update place s.size .row)
          (s.fresh rank none).2.size p := fun hfields p =>
      .record (fun f hf => hg.stands (hfields f hf)) (by rintro _ ⟨⟩; exact hrest)
    exact ⟨_, ⟨hg.placed, (hg.standing hv).1, rfl, hrec hright _⟩,
      ⟨hg.placed, (hg.standing hw).1, rfl, hrec hleft _⟩, fun o ho s' hs' =>
      (ho s' hs').imp fun _ => hg.trans⟩
  under hc _ _ _ hcb := absurd (kind_eq_poisoned.mpr hcb) (hc.1.healthy _ hc.2.2.1)
  merge hc hra hrb hab _ hcb := by
    rintro _ ⟨⟩
    obtain ⟨hs, ha, hb, hp⟩ := hc
    obtain ⟨hf, hal⟩ :=
      merge_alike hs.forest ha hb hra hrb hab (kind_eq_free.mpr ⟨_, _, hcb⟩) _ _
    have hg := hs.link ha hb hra hrb hab hp
    exact ⟨_, hg.trans (hg.placed.alike hf hal)⟩
  adopt hc hra hrb hab _ _ _ := by
    rintro _ ⟨⟩
    obtain ⟨hs, ha, hb, hp⟩ := hc
    refine ⟨_, hs.adopt (fun s => s.link _ _) fun hal hs1 => ?_⟩
    rw [← hal.size] at ha hb
    rw [← hal.root] at hra hrb
    exact hs1.link ha hb hra hrb hab hp
  bind hc hra _ _ := by
    rintro _ ⟨⟩
    obtain ⟨hs, ha, hnv, ht⟩ := hc
    refine ⟨_, hs.adopt (fun s => s.put _ _) fun hal hs1 => ?_⟩
    rw [← hal.size] at ha ht
    rw [← hal.root] at hra
    exact hs1.bind ha hra hnv ht
  join {place a b s l r s1 s2} hc _ _ _ h _ _ hne _ := by
    rintro _ ⟨⟩
    obtain ⟨place', hg⟩ := h _ rfl
    obtain ⟨ha, hb, hp⟩ := hg.call hc.2
    have hs2 := hg.placed
    exact ⟨place', hg.trans (hs2.link (hs2.forest.root_lt ha) (hs2.forest.root_lt hb)
      (hs2.forest.root_root a) (hs2.forest.root_root b) hne
      (((hs2.root a ha).symm.trans hp).trans (hs2.root b hb)))⟩

theorem ran_keeps (n : Nat) (h : Ran n c s (.unified s')) (hs : s.Placed K place)
    (hc : c.Stands K place s.size) : ∃ place', Grows K place s place' s' := by
  suffices ∀ {c s o} {place : Var → Place}, Ran n c s o → s.Placed K place ∧ c.Stands K place s.size →
      ∀ s', o = .unified s' → ∃ place', Grows K place s place' s' from this h ⟨hs, hc⟩ s' rfl
  clear h hs hc
  induction n with
  | zero => rintro c s o place ⟨h, ho⟩; cases c <;> exact absurd h.symm ho
  | succ n ih => exact fun h hc => (rule_of_run h).tracked (placed_tracker _) ih hc

theorem completes_keeps {o : Outcome} (h : Completes c s o)
    (hc : s.Placed K place ∧ c.Stands K place s.size) (s' : Store) (ho : o = .unified s') :
    ∃ place', Grows K place s place' s' := by
  obtain ⟨n, hn⟩ := h
  subst ho
  exact ran_keeps n ⟨hn n le_rfl, by simp⟩ hc.1 hc.2

end Store
end TypeSolver
