import TypeSolver.Proofs.Lockstep

/-!
# TypeSolver.Proofs.Mirrors

One run in two stores. Where a part of the store `t` is a copy of a part of the store `s`, under
other names, what is done to that part of `s` can be done to its copy in `t` (`Mirrors`). Both runs
then take the same steps with the same fuel and end in the same way, the copy stays a copy, and the
rest of `t` stays as it was in `base` (`Mirrors.lockstep`). New variables belong to the part; the
stores may differ in size, so they have other names too.
-/

namespace TypeSolver

namespace AliasTable

variable {table : AliasTable} {ρ : Var → Var}

theorem expand_renamed (name : String) (args : List Ty) :
    table.expand name (args.map (Ty.renamed ρ)) =
      (table.expand name args).map (Except.map (Ty.renamed ρ)) := by
  rw [expand, expand]
  cases Assoc.get? table name with
  | none => rfl
  | some entry =>
    simp only [List.length_map]
    split
    · rw [Option.map_some, ← Signature.toTy_renamed, Assoc.mapValues, List.map_reverse,
        List.zip_map_right]
      rfl
    · rfl

theorem head_renamed (fuel : Nat) (t : Ty) :
    table.head fuel (t.renamed ρ) = (table.head fuel t).map (Head.renamed ρ) := by
  induction fuel generalizing t with
  | zero => cases t <;> rfl
  | succ fuel ih =>
    cases t with
    | var v => rfl
    | func arg ret => rfl
    | record fields ext => rfl
    | app name args =>
      rw [Ty.renamed_app, head, expand_renamed, head]
      cases table.expand name args with
      | none => rw [← Ty.renamed_app]; rfl
      | some result =>
        cases result with
        | error e => simp only [Option.map_some, Except.map, Head.renamed, Ty.renamed_app]
        | ok u => exact ih u

theorem mem_vars_of_expand {name : String} {args : List Ty} {u : Ty} {v : Var}
    (h : table.expand name args = some (.ok u)) (hv : v ∈ u.vars) :
    v ∈ (Ty.app name args).vars := by
  obtain ⟨_, _, _, hbody⟩ := expand_ok.mp h
  obtain ⟨x, a, ha, hva⟩ := Signature.mem_vars_toTy hbody hv
  have hmem := List.mem_reverse.mp (Assoc.mem_of_get? ha)
  exact Ty.mem_vars_app.mpr ⟨a, (List.of_mem_zip hmem).2, hva⟩

theorem mem_vars_of_head {fuel : Nat} {t : Ty} {hd : Head} {v : Var}
    (h : table.head fuel t = some hd) (hv : v ∈ hd.type.vars) : v ∈ t.vars := by
  refine head_induction (P := fun t => v ∈ t.vars) h (fun _ heq _ => ?_) (fun _ heq => ?_)
    fun _ _ _ => mem_vars_of_expand
  · rw [heq] at hv
    exact hv
  · rw [heq] at hv
    exact hv

end AliasTable

namespace Store

variable {own : Var → Prop} {ρ : Var → Var} {base s s' t t' : Store}

def Outside (own : Var → Prop) (ρ : Var → Var) (w : Var) : Prop := ∀ v, own v → ρ v ≠ w

/-- The variable is in `own` and was made. -/
def Owned (own : Var → Prop) (s : Store) (v : Var) : Prop := own v ∧ v < s.size

/-- The variables in `own` stand in `t`, where `v` is called `ρ v`, as they stand in `s`, and all
others stand in `t` as they stand in `base`. All variables that are still to be made are in `own`. -/
structure Mirrors (own : Var → Prop) (ρ : Var → Var) (base s t : Store) : Prop where
  forest : s.Forest
  forest' : t.Forest
  aliases : t.aliases = s.aliases
  next : ∀ k, ρ (s.size + k) = t.size + k
  later : ∀ v, s.size ≤ v → own v
  injective : ∀ v w, own v → own w → ρ v = ρ w → v = w
  lt : ∀ v, Owned own s v → ρ v < t.size
  ownRoot : ∀ v, own v → own (s.root v)
  root : ∀ v, own v → t.root (ρ v) = ρ (s.root v)
  content : ∀ v, own v → t.content (ρ v) = (s.content v).renamed ρ
  within : ∀ v u, own v → s.content v = .bound u → ∀ w ∈ u.vars, Owned own s w
  apart : ∀ w, Outside own ρ w → Outside own ρ (base.root w)
  kept : ∀ w, Outside own ρ w → t.root w = base.root w ∧ t.content w = base.content w
  keptAliases : t.aliases = base.aliases
  grown : base.size ≤ t.size

theorem Owned.mono {v : Var} (h : Owned own s v) (hle : s.size ≤ s'.size) : Owned own s' v :=
  ⟨h.1, h.2.trans_le hle⟩

def Owns (own : Var → Prop) (s : Store) (vs : List Var) : Prop := ∀ v ∈ vs, Owned own s v

namespace Owns

variable {vs : List Var}

theorem mono (h : Owns own s vs) (hle : s.size ≤ s'.size) : Owns own s' vs :=
  fun v hv => (h v hv).mono hle

theorem all (h : Owns own s vs) : ∀ v ∈ vs, own v := fun v hv => (h v hv).1

end Owns

namespace Mirrors

variable {v w x y : Var} (h : Mirrors own ρ base s t)

include h

theorem eq_iff (hv : own v) (hw : own w) : ρ v = ρ w ↔ v = w :=
  ⟨h.injective v w hv hw, congrArg ρ⟩

theorem ownedRoot (hv : Owned own s v) : Owned own s (s.root v) :=
  ⟨h.ownRoot v hv.1, h.forest.root_lt hv.2⟩

theorem write (hf : s'.Forest) (hf' : t'.Forest)
    (hsize : s'.size = s.size) (hsize' : t'.size = t.size) (haliases : s'.aliases = s.aliases)
    (haliases' : t'.aliases = t.aliases)
    (hroot : ∀ v, own v → own (s'.root v) ∧ t'.root (ρ v) = ρ (s'.root v))
    (hcontent : ∀ v, own v → t'.content (ρ v) = (s'.content v).renamed ρ)
    (hwithin : ∀ v u, own v → s'.content v = .bound u → ∀ w ∈ u.vars, Owned own s w)
    (hkept : ∀ w, Outside own ρ w → t'.root w = t.root w ∧ t'.content w = t.content w) :
    Mirrors own ρ base s' t' where
  forest := hf
  forest' := hf'
  aliases := by rw [haliases, haliases', h.aliases]
  next k := by rw [hsize, hsize', h.next]
  later v hv := h.later v (hsize ▸ hv)
  injective := h.injective
  lt v hv := by rw [hsize']; exact h.lt v (hv.mono hsize.le)
  ownRoot v hv := (hroot v hv).1
  root v hv := (hroot v hv).2
  content := hcontent
  within v u hv hu w hw := (hwithin v u hv hu w hw).mono hsize.ge
  apart := h.apart
  kept w hw := ⟨(hkept w hw).1.trans (h.kept w hw).1, (hkept w hw).2.trans (h.kept w hw).2⟩
  keptAliases := haliases'.trans h.keptAliases
  grown := by rw [hsize']; exact h.grown

theorem root_ne (hw : Outside own ρ w) (hv : own v) :
    t.root w ≠ ρ v := by
  rw [(h.kept w hw).1]
  exact (h.apart w hw v hv).symm

theorem relinked {s' t' : Store} (hs : Relinked s s') (ht : Relinked t t') :
    Mirrors own ρ base s' t' := by
  have hl := h.forest.linksEnd
  have hl' := h.forest'.linksEnd
  refine h.write (hs.forest h.forest) (ht.forest h.forest') (hs.size hl) (ht.size hl') hs.aliases
    ht.aliases (fun x hx => ?_) (fun x hx => ?_) (fun x u hx hu => ?_) fun w _ => ?_
  · rw [hs.root hl, ht.root hl']; exact ⟨h.ownRoot x hx, h.root x hx⟩
  · rw [hs.content hl, ht.content hl', h.content x hx]
  · exact h.within x u hx (hs.content hl x ▸ hu)
  · exact ⟨ht.root hl' w, ht.content hl' w⟩

theorem put {r : Var} (hr : Owned own s r) (hroot : s.root r = r)
    {c : Content} (hc : ∀ u, c = .bound u → ∀ w ∈ u.vars, Owned own s w) :
    Mirrors own ρ base (s.put r c) (t.put (ρ r) (c.renamed ρ)) := by
  have hroot' : t.root (ρ r) = ρ r := by rw [h.root r hr.1, hroot]
  obtain ⟨hf, hro, hco⟩ := put_view h.forest hr.2 hroot c
  obtain ⟨hf', hro', hco'⟩ := put_view h.forest' (h.lt r hr) hroot' (c.renamed ρ)
  refine h.write hf hf' (put_size ..) (put_size ..) rfl rfl (fun x hx => ?_) (fun x hx => ?_)
    (fun x u hx hu => ?_) fun w hw => ⟨hro' w, ?_⟩
  · rw [hro, hro']; exact ⟨h.ownRoot x hx, h.root x hx⟩
  · rw [hco, hco', h.root x hx, apply_ite (Content.renamed ρ), h.content x hx]
    simp only [h.eq_iff (h.ownRoot x hx) hr.1]
  · rw [hco] at hu
    split at hu
    · exact hc u hu
    · exact h.within x u hx hu
  · rw [hco', if_neg (h.root_ne hw hr.1)]

theorem link {a b : Var} (ha : Owned own s a) (hb : Owned own s b)
    (hra : s.root a = a) (hrb : s.root b = b) (hab : a ≠ b) :
    Mirrors own ρ base (s.link a b) (t.link (ρ a) (ρ b)) := by
  have hra' : t.root (ρ a) = ρ a := by rw [h.root a ha.1, hra]
  have hrb' : t.root (ρ b) = ρ b := by rw [h.root b hb.1, hrb]
  have hab' : ρ a ≠ ρ b := fun heq => hab (h.injective a b ha.1 hb.1 heq)
  obtain ⟨hf, hro, hco⟩ := link_view h.forest ha.2 hb.2 hra hrb hab
  obtain ⟨hf', hro', hco'⟩ := link_view h.forest' (h.lt a ha) (h.lt b hb) hra' hrb' hab'
  refine h.write hf hf' (link_size ..) (link_size ..) rfl rfl (fun x hx => ⟨?_, ?_⟩)
    (fun x hx => ?_) (fun x u hx hu => ?_) fun w hw => ⟨?_, ?_⟩
  · rw [hro]
    split
    · exact hb.1
    · exact h.ownRoot x hx
  · rw [hro, hro', h.root x hx, apply_ite ρ]
    simp only [h.eq_iff (h.ownRoot x hx) ha.1]
  · rw [hco, hco', h.root x hx, apply_ite (Content.renamed ρ), h.content x hx, h.content b hb.1]
    simp only [h.eq_iff (h.ownRoot x hx) ha.1]
  · rw [hco] at hu
    split at hu
    · exact h.within b u hb.1 hu
    · exact h.within x u hx hu
  · rw [hro', if_neg (h.root_ne hw ha.1)]
  · rw [hco', if_neg (h.root_ne hw ha.1)]

theorem fresh (rank : Rank) (hint : Option String) :
    Mirrors own ρ base (s.fresh rank hint).2 (t.fresh rank hint).2 := by
  obtain ⟨hf, hro, hco⟩ := fresh_view h.forest rank hint
  obtain ⟨hf', hro', hco'⟩ := fresh_view h.forest' rank hint
  have hnew : own s.size := h.later _ le_rfl
  have hname : ρ s.size = t.size := h.next 0
  have hsize : s.size ≤ (s.fresh rank hint).2.size := by rw [fresh_size]; omega
  have hnext : ∀ k, ρ ((s.fresh rank hint).2.size + k) = (t.fresh rank hint).2.size + k := by
    intro k
    rw [fresh_size, fresh_size, Nat.add_assoc, h.next, Nat.add_assoc]
  refine ⟨hf, hf', h.aliases, hnext, fun v hv => h.later v (hsize.trans hv), h.injective,
    fun v hv => ?_, fun v hv => ?_, fun v hv => ?_, fun v hv => ?_, fun v u hv hu w hw => ?_, h.apart,
    fun w hw => ?_, h.keptAliases, ?_⟩
  · rw [fresh_size]
    have hlt : v < s.size + 1 := fresh_size s rank hint ▸ hv.2
    rcases Nat.lt_succ_iff_lt_or_eq.mp hlt with hlt | rfl
    · exact Nat.lt_succ_of_lt (h.lt v ⟨hv.1, hlt⟩)
    · rw [hname]; exact Nat.lt_succ_self _
  · rw [hro]; exact h.ownRoot v hv
  · rw [hro, hro']; exact h.root v hv
  · rw [hco, hco', apply_ite (Content.renamed ρ), h.content v hv, ← hname]
    simp only [h.eq_iff hv hnew]
    rfl
  · rw [hco] at hu
    split at hu
    · cases hu
    · exact (h.within v u hv hu w hw).mono hsize
  · rw [hro', hco', if_neg fun heq => hw s.size hnew (hname.trans heq.symm)]
    exact h.kept w hw
  · rw [fresh_size]
    exact Nat.le_succ_of_le h.grown

theorem closed : s.Closed (Owned own s) :=
  ⟨fun _ hv => hv.2, fun v u hv hu => h.within v u hv.1 (kind_eq_bound.mp hu)⟩

theorem content_bound (hv : own v) {u : Ty} :
    t.content (ρ v) = .bound u ↔ ∃ u', s.content v = .bound u' ∧ u'.renamed ρ = u := by
  rw [h.content v hv]
  cases s.content v <;> simp [Content.renamed]

theorem closed' : t.Closed fun w => ∃ v, Owned own s v ∧ ρ v = w := by
  refine ⟨?_, ?_⟩
  · rintro _ ⟨v, hv, rfl⟩
    exact h.lt v hv
  · rintro _ u ⟨v, hv, rfl⟩ hu w hw
    obtain ⟨u', hu', rfl⟩ := (h.content_bound hv.1).mp (kind_eq_bound.mp hu)
    rw [Ty.vars_renamed, List.mem_map] at hw
    obtain ⟨x, hx, rfl⟩ := hw
    exact ⟨x, h.within v u' hv.1 hu' x hx, rfl⟩

theorem edge (hv : own v) :
    t.Edge (ρ v) y ↔ ∃ x, s.Edge v x ∧ ρ x = y := by
  constructor
  · rintro ⟨u, hu, w, hw, rfl⟩
    obtain ⟨u', hu', rfl⟩ := (h.content_bound hv).mp (kind_eq_bound.mp hu)
    rw [Ty.vars_renamed, List.mem_map] at hw
    obtain ⟨x, hx, rfl⟩ := hw
    refine ⟨s.root x, ⟨u', kind_eq_bound.mpr hu', x, hx, rfl⟩, ?_⟩
    exact (h.root x (h.within v u' hv hu' x hx).1).symm
  · rintro ⟨_, ⟨u, hu, w, hw, rfl⟩, rfl⟩
    have hu := kind_eq_bound.mp hu
    refine ⟨u.renamed ρ, kind_eq_bound.mpr ((h.content_bound hv).mpr ⟨u, hu, rfl⟩), ρ w, ?_, ?_⟩
    · rw [Ty.vars_renamed]
      exact List.mem_map.mpr ⟨w, hw, rfl⟩
    · exact h.root w (h.within v u hv hu w hw).1

theorem own_of_edge (hv : own v) (he : s.Edge v x) : own x := by
  obtain ⟨u, hu, w, hw, rfl⟩ := he
  exact h.ownRoot w (h.within v u hv (kind_eq_bound.mp hu) w hw).1

theorem own_of_reaches (hv : own v) (hr : s.Reaches v x) : own x := by
  induction hr with
  | refl => exact h.ownRoot v hv
  | tail _ he ih => exact h.own_of_edge ih he

theorem reaches (hv : own v) :
    t.Reaches (ρ v) y ↔ ∃ x, s.Reaches v x ∧ ρ x = y := by
  rw [Reaches, h.root v hv]
  constructor
  · intro hr
    induction hr with
    | refl => exact ⟨s.root v, .refl, rfl⟩
    | tail _ he ih =>
      obtain ⟨x, hx, rfl⟩ := ih
      obtain ⟨z, hz, rfl⟩ := (h.edge (h.own_of_reaches hv hx)).mp he
      exact ⟨z, .tail hx hz, rfl⟩
  · rintro ⟨x, hr, rfl⟩
    induction hr with
    | refl => exact .refl
    | tail hr he ih => exact .tail ih ((h.edge (h.own_of_reaches hv hr)).mpr ⟨_, he, rfl⟩)

section Reach

variable {u : Ty} (hu : Owns own s u.vars)

include hu

theorem mem_reach {r : Var} : r ∈ s.reach u ↔ ∃ v ∈ u.vars, s.Reaches v r :=
  h.closed.mem_foldl_visit h.forest hu

theorem mem_reach' : y ∈ t.reach (u.renamed ρ) ↔ ∃ r ∈ s.reach u, ρ r = y := by
  have hvars : ∀ w ∈ (u.renamed ρ).vars, ∃ v, Owned own s v ∧ ρ v = w := by
    intro w hw
    rw [Ty.vars_renamed, List.mem_map] at hw
    obtain ⟨v, hv, rfl⟩ := hw
    exact ⟨v, hu v hv, rfl⟩
  rw [reach, reachFrom, h.closed'.mem_foldl_visit h.forest' hvars, Ty.vars_renamed]
  constructor
  · rintro ⟨_, hw, hr⟩
    obtain ⟨v, hv, rfl⟩ := List.mem_map.mp hw
    obtain ⟨x, hx, rfl⟩ := (h.reaches (hu v hv).1).mp hr
    exact ⟨x, (h.mem_reach hu).mpr ⟨v, hv, hx⟩, rfl⟩
  · rintro ⟨r, hr, rfl⟩
    obtain ⟨v, hv, hr⟩ := (h.mem_reach hu).mp hr
    exact ⟨ρ v, List.mem_map.mpr ⟨v, hv, rfl⟩, (h.reaches (hu v hv).1).mpr ⟨r, hr, rfl⟩⟩

theorem owned_of_mem_reach {r : Var} (hr : r ∈ s.reach u) : Owned own s r := by
  obtain ⟨v, hv, hr⟩ := (h.mem_reach hu).mp hr
  refine ⟨h.own_of_reaches (hu v hv).1 hr, ?_⟩
  rcases Relation.ReflTransGen.cases_tail hr with rfl | ⟨x, hx, u', hu', w, hw, rfl⟩
  · exact h.forest.root_lt (hu v hv).2
  · have hx := h.own_of_reaches (hu v hv).1 hx
    exact h.forest.root_lt (h.within x u' hx (kind_eq_bound.mp hu') w hw).2

theorem lowerRanks (rank : Rank) : Mirrors own ρ base (s.lowerRanks (s.reach u) rank)
      (t.lowerRanks (t.reach (u.renamed ρ)) rank) := by
  obtain ⟨hf, hal⟩ := lowerRanks_alike h.forest rank (s.reach u)
  obtain ⟨hf', hal'⟩ := lowerRanks_alike h.forest' rank (t.reach (u.renamed ρ))
  have hco := lowerRanks_content h.forest rank fun v hv => (h.owned_of_mem_reach hu hv).2
  have hlt : ∀ y ∈ t.reach (u.renamed ρ), y < t.size := by
    intro y hy
    obtain ⟨r, hr, rfl⟩ := (h.mem_reach' hu).mp hy
    exact h.lt r (h.owned_of_mem_reach hu hr)
  have hco' := lowerRanks_content h.forest' rank hlt
  refine h.write hf hf' hal.size hal'.size hal.aliases hal'.aliases (fun x hx => ?_)
    (fun x hx => ?_) (fun x u' hx hu' => ?_) fun w hw => ⟨hal'.root w, ?_⟩
  · rw [hal.root, hal'.root]; exact ⟨h.ownRoot x hx, h.root x hx⟩
  · have hiff : (∃ y ∈ t.reach (u.renamed ρ), t.root y = t.root (ρ x)) ↔
        ∃ r ∈ s.reach u, s.root r = s.root x := by
      rw [h.root x hx]
      constructor
      · rintro ⟨_, hy, heq⟩
        obtain ⟨r, hr, rfl⟩ := (h.mem_reach' hu).mp hy
        have hor := (h.owned_of_mem_reach hu hr).1
        rw [h.root r hor, h.eq_iff (h.ownRoot r hor) (h.ownRoot x hx)] at heq
        exact ⟨r, hr, heq⟩
      · rintro ⟨r, hr, heq⟩
        refine ⟨ρ r, (h.mem_reach' hu).mpr ⟨r, hr, rfl⟩, ?_⟩
        rw [h.root r (h.owned_of_mem_reach hu hr).1, heq]
    rw [hco, hco', apply_ite (Content.renamed ρ), h.content x hx]
    simp only [hiff]
    congr 1
    cases s.content x <;> rfl
  · rw [hco] at hu'
    split at hu'
    · cases hc : s.content x with
      | unbound k hint => rw [hc] at hu'; cases hu'
      | poisoned => rw [hc] at hu'; cases hu'
      | bound u'' => rw [hc] at hu'; cases hu'; exact h.within x _ hx hc
    · exact h.within x u' hx hu'
  · rw [hco', if_neg]
    rintro ⟨y, hy, heq⟩
    obtain ⟨r, hr, rfl⟩ := (h.mem_reach' hu).mp hy
    have hor := (h.owned_of_mem_reach hu hr).1
    rw [h.root r hor] at heq
    exact h.root_ne hw (h.ownRoot r hor) heq.symm

end Reach

end Mirrors

/-- Both parts end, or both are out of fuel, whatever names were given before. -/
abbrev EndAlike {α β : Type} : StateT Naming Option α → StateT Naming Option β → Prop :=
  Tandem (fun _ _ => True) fun _ _ => True

namespace Mirrors

variable (h : Mirrors own ρ base s t)

include h

/-- A type can be read exactly if its copy can. -/
theorem readType (fuel : Nat) {u : Ty} (hu : ∀ v ∈ u.vars, own v) :
    EndAlike (s.readType fuel u) (t.readType fuel (u.renamed ρ)) := by
  induction fuel generalizing u with
  | zero => exact fun _ _ _ => .none
  | succ fuel ih =>
    cases u with
    | var v =>
      have hv := hu v (by simp)
      rw [Ty.renamed, Store.readType, Store.readType, h.content v hv]
      cases hc : s.content v with
      | poisoned => exact .pure trivial
      | unbound rank hint => exact fun _ _ _ => .some ⟨trivial, trivial⟩
      | bound u' => exact ih fun w hw => (h.within v u' hv hc w hw).1
    | func arg ret =>
      exact (ih fun v hv => hu v (by simp [hv])).bind fun _ _ _ =>
        (ih fun v hv => hu v (by simp [hv])).bind fun _ _ _ => .pure trivial
    | app name args =>
      have hargs := Tandem.mapM (List.forall₂_map_right_iff.mpr (List.forall₂_same.mpr fun a ha =>
        ih fun v hv => hu v (Ty.mem_vars_app.mpr ⟨a, ha, hv⟩)))
      rw [Ty.renamed_app, Store.readType, Store.readType, h.aliases, AliasTable.expand_renamed]
      cases hexpand : s.aliases.expand name args with
      | none => exact hargs.bind fun _ _ _ => .pure trivial
      | some result =>
        cases result with
        | error e => exact hargs.bind fun _ _ _ => .pure trivial
        | ok u' => exact ih fun v hv => hu v (AliasTable.mem_vars_of_expand hexpand hv)
    | record fields ext =>
      rw [Ty.renamed_record, Store.readType, Store.readType]
      refine (Tandem.mapM (Q := fun _ _ => True) (List.forall₂_map_right_iff.mpr
        (List.forall₂_same.mpr fun f hf => ?_))).bind fun _ _ _ => ?_
      · exact (ih fun v hv => hu v (Ty.mem_vars_record.mpr (.inl ⟨f, hf, hv⟩))).bind fun _ _ _ =>
          .pure trivial
      · cases ext with
        | none => exact .pure trivial
        | some v =>
          have hv : EndAlike (s.readType fuel (.var v)) (t.readType fuel (.var (ρ v))) :=
            ih fun w hw => hu w (Ty.mem_vars_record.mpr (.inr (by rw [Ty.mem_vars_var.mp hw])))
          exact hv.bind fun _ _ _ => .pure trivial

theorem shown (fuel : Nat) {u : Ty} (hu : ∀ v ∈ u.vars, own v) :
    Option.Rel (fun _ _ => True) (s.snapshot fuel u) (t.snapshot fuel (u.renamed ρ)) := by
  have hends := h.readType fuel hu {} {} trivial
  rw [Store.snapshot, Store.snapshot]
  generalize (s.readType fuel u).run {} = x, (t.readType fuel (u.renamed ρ)).run {} = y at hends
  cases hends with
  | none => exact .none
  | some => exact .some trivial

end Mirrors
end Store

/-- What a mismatch is about, apart from the types that it shows. -/
inductive Fault where
  | shape
  | occurs
  | fields (missing extra : List String)
deriving DecidableEq

def Mismatch.fault : Mismatch → Fault
  | .shape _ _ => .shape
  | .occurs _ _ => .occurs
  | .fields missing extra _ _ => .fields missing extra

theorem Mismatch.Alike.fault_eq {N : NamedType → NamedType → Prop} {m m' : Mismatch}
    (h : m.Alike N m') : m'.fault = m.fault := by
  cases h <;> rfl

/-- The outcomes are of one kind, in stores of which one has a copy of a part of the other. -/
abbrev Outcome.Mirrors (own : Var → Prop) (ρ : Var → Var) (base : Store) :
    Nat → Outcome → Outcome → Prop :=
  Outcome.Alike (fun _ _ => True) (Store.Mirrors own ρ base)

namespace Store

variable {own : Var → Prop} {ρ : Var → Var} {base s : Store}

theorem owns_var {v : Var} : Owns own s (Ty.var v).vars ↔ Owned own s v := by simp [Owns]

/-- A part and its copy are read and written alike. -/
theorem Mirrors.lockstep (own : Var → Prop) (ρ : Var → Var) (base : Store) :
    Lockstep ρ (fun s u => Owns own s u.vars) (fun _ _ => True) (Mirrors own ρ base) where
  mono hle hu := hu.mono hle
  func hu := ⟨fun v hv => hu v (by simp [hv]), fun v hv => hu v (by simp [hv])⟩
  app hu a ha v hv := hu v (Ty.mem_vars_app.mpr ⟨a, ha, hv⟩)
  record hu := by
    refine ⟨fun f hf v hv => hu v (Ty.mem_vars_record.mpr (.inl ⟨f, hf, hv⟩)), fun v hv => ?_⟩
    exact owns_var.mpr (hu v (Ty.mem_vars_record.mpr (.inr hv)))
  rebuild _ hfields hext v hv := by
    rcases Ty.mem_vars_record.mp hv with ⟨f, hf, hv⟩ | hv
    · exact hfields f hf v hv
    · exact owns_var.mp (hext v hv)
  injective h hv hw := h.injective _ _ (owns_var.mp hv).1 (owns_var.mp hw).1
  content h hv := ⟨h.content _ (owns_var.mp hv).1, fun u hu => h.within _ u (owns_var.mp hv).1 hu⟩
  head n h hu := by
    rw [h.aliases, AliasTable.head_renamed]
    exact ⟨rfl, fun hd hhd v hv => hu v (AliasTable.mem_vars_of_head hhd hv)⟩
  shown n h hu := h.shown n hu.all
  linksEnd h := ⟨h.forest.linksEnd, h.forest'.linksEnd⟩
  root h hv := ⟨h.root _ (owns_var.mp hv).1, owns_var.mpr (h.ownedRoot (owns_var.mp hv))⟩
  relinked h hs ht := h.relinked hs ht
  put h hr hroot hc := h.put (owns_var.mp hr) hroot hc
  link h ha hb hra hrb hab := by
    have ha := owns_var.mp ha
    have hb := owns_var.mp hb
    refine ⟨h.link ha hb hra hrb hab, ?_⟩
    rw [(link_view h.forest ha.2 hb.2 hra hrb hab).2.1, hrb, if_neg (Ne.symm hab)]
  fresh {s t} rank h := by
    refine ⟨h.fresh rank none, h.next 0, owns_var.mpr ⟨h.later _ le_rfl, ?_⟩⟩
    rw [fresh_size]
    exact Nat.lt_succ_self _
  reach {s t u r} h hu hr := by
    rw [h.mem_reach' hu]
    constructor
    · rintro ⟨x, hx, heq⟩
      rwa [← h.injective x r (h.owned_of_mem_reach hu hx).1 (owns_var.mp hr).1 heq]
    · exact fun hr => ⟨r, hr, rfl⟩
  lowerRanks {s t u} rank h hu := by
    have hal := (lowerRanks_alike h.forest rank (s.reach u)).2
    exact ⟨h.lowerRanks hu rank, hal.size, funext hal.root⟩

end Store
end TypeSolver
