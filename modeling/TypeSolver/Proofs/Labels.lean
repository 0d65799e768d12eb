import TypeSolver.Proofs.Polytypes
import TypeSolver.Proofs.Twins

/-!
# TypeSolver.Proofs.Labels

Names for the variables of a tree. The shown type of a binding depends on its tree, and on the
hints of the variables in it, but not on what the variables are called in the store: trees that
differ by a renaming get the same names in the same order (`Labeled.renamed`), and so schemes that
offer the same type are shown in the same way (`SameOffer.polytype_eq`).
-/

namespace TypeSolver

open Meaning

namespace Naming

variable {ρ : Var → Var} {V : Var → Prop} {nm nm' : Naming} {r : Var}

/-- The names given in two readings, where the variable `r` of the first is called `ρ r` in the
second. All variables are quantified. -/
structure Alike (ρ : Var → Var) (V : Var → Prop) (nm nm' : Naming) : Prop where
  inj : ∀ a b, V a → V b → ρ a = ρ b → a = b
  quantified : ∀ r, V r → r ∈ nm.quantified ∧ ρ r ∈ nm'.quantified
  keys : ∀ e ∈ nm.names, V e.1
  names : nm'.names = nm.names.map fun e => (ρ e.1, e.2)
  order : nm'.order = nm.order
  nextLetter : nm'.nextLetter = nm.nextLetter

namespace Alike

variable (h : Alike ρ V nm nm')

include h

theorem isTaken (name : String) : nm'.isTaken name = nm.isTaken name := by
  rw [Naming.isTaken, Naming.isTaken, h.names, List.any_map]
  rfl

theorem freeLetter (fuel index : Nat) : nm'.freeLetter fuel index = nm.freeLetter fuel index := by
  induction fuel generalizing index with
  | zero => rfl
  | succ fuel ih => rw [Naming.freeLetter, Naming.freeLetter, h.isTaken, ih]

theorem get? (hr : V r) : Assoc.get? nm'.names (ρ r) = Assoc.get? nm.names r := by
  rw [h.names]
  have hkeys := h.keys
  generalize nm.names = names at hkeys
  induction names with
  | nil => rfl
  | cons e names ih =>
    rw [List.map_cons, Assoc.get?, Assoc.get?, ih fun e he => hkeys e (.tail _ he)]
    have hiff : ρ r = ρ e.1 ↔ r = e.1 :=
      ⟨h.inj r e.1 hr (hkeys e (.head _)), congrArg ρ⟩
    simp only [hiff]

theorem addQuantified (hr : V r) (name : String) :
    Alike ρ V (nm.addQuantified r name) (nm'.addQuantified (ρ r) name) := by
  refine ⟨h.inj, h.quantified, fun e he => ?_, ?_, ?_, h.nextLetter⟩
  · rcases List.mem_append.mp he with he | he
    · exact h.keys e he
    · rw [List.mem_singleton.mp he]
      exact hr
  · simp [Naming.addQuantified, h.names]
  · simp [Naming.addQuantified, h.order]

theorem nameOf (hr : V r) (hint : Option String) :
    (nm'.nameOf (ρ r) hint).1 = (nm.nameOf r hint).1 ∧
      Alike ρ V (nm.nameOf r hint).2 (nm'.nameOf (ρ r) hint).2 := by
  obtain ⟨hq, hq'⟩ := h.quantified r hr
  rw [Naming.nameOf, Naming.nameOf, h.get? hr]
  cases Assoc.get? nm.names r with
  | some name => exact ⟨rfl, h⟩
  | none =>
    have hfree : nm'.freeLetter (nm'.names.length + 1) nm'.nextLetter =
        nm.freeLetter (nm.names.length + 1) nm.nextLetter := by
      rw [h.freeLetter, h.names, List.length_map, h.nextLetter]
    simp only [if_pos hq, if_pos hq', h.isTaken, hfree]
    split
    · exact ⟨rfl, h.addQuantified hr _⟩
    · obtain ⟨hinj, hquantified, hkeys, hnames, horder, _⟩ := h.addQuantified hr
        (letter (nm.freeLetter (nm.names.length + 1) nm.nextLetter))
      exact ⟨rfl, hinj, hquantified, hkeys, hnames, horder, rfl⟩

end Alike
end Naming

/-- Naming the variables of the tree from left to right shows it as the given type, and takes the
names given so far from the first naming to the second. -/
inductive Meaning.Labeled (hint : Var → Option String) :
    Meaning → Naming → NamedType → Naming → Prop where
  | var {r : Var} {nm : Naming} : Labeled hint (.var r) nm (.var (nm.nameOf r (hint r)).1)
      (nm.nameOf r (hint r)).2
  | func {a b : Meaning} {x y : NamedType} {nm nm1 nm' : Naming} : Labeled hint a nm x nm1 →
      Labeled hint b nm1 y nm' → Labeled hint (.func a b) nm (.func x y) nm'
  | nil {name : String} {nm : Naming} : Labeled hint (.app name []) nm (.app name []) nm
  | cons {name : String} {m : Meaning} {ms : List Meaning} {x : NamedType} {xs : List NamedType}
      {nm nm1 nm' : Naming} : Labeled hint m nm x nm1 →
      Labeled hint (.app name ms) nm1 (.app name xs) nm' →
      Labeled hint (.app name (m :: ms)) nm (.app name (x :: xs)) nm'

namespace Meaning.Labeled

variable {hint hint' : Var → Option String} {m : Meaning} {n n' : NamedType}
  {nm nm1 nm' nm1' : Naming} {ρ : Var → Var} {V : Var → Prop}

theorem renamed (h : m.Labeled hint nm n nm1) (h' : (m.renamed ρ).Labeled hint' nm' n' nm1')
    (hm : m.Within V) (hhint : ∀ r, V r → hint' (ρ r) = hint r) (ha : Naming.Alike ρ V nm nm') :
    n' = n ∧ Naming.Alike ρ V nm1 nm1' := by
  induction h generalizing nm' n' nm1' with
  | @var r nm =>
    rw [renamed_var] at h'
    have hr : V r := within_var.mp hm
    cases h'
    rw [hhint r hr]
    obtain ⟨hname, ha'⟩ := ha.nameOf hr (hint r)
    exact ⟨by rw [hname], ha'⟩
  | func _ _ iha ihb =>
    rw [renamed_func] at h'
    obtain ⟨hma, hmb⟩ := within_func.mp hm
    cases h' with
    | func hx hy =>
      obtain ⟨rfl, ha1⟩ := iha hx hma ha
      obtain ⟨rfl, ha'⟩ := ihb hy hmb ha1
      exact ⟨rfl, ha'⟩
  | nil =>
    rw [renamed_app] at h'
    cases h'
    exact ⟨rfl, ha⟩
  | @cons name m ms x xs nm nm1 nm2 _ _ ih ihs =>
    have hms : (Meaning.app name ms).renamed ρ = .app name (ms.map (Meaning.renamed ρ)) :=
      renamed_app
    rw [renamed_app, List.map_cons] at h'
    cases h' with
    | cons hx hxs =>
      obtain ⟨rfl, ha1⟩ := ih hx (fun r hr => hm r (.app (.head _) hr)) ha
      rw [← hms] at hxs
      obtain ⟨heq, ha'⟩ := ihs hxs (fun r hr => hm r (by
        cases hr with
        | app ha hr => exact .app (.tail _ ha) hr)) ha1
      cases heq
      exact ⟨rfl, ha'⟩

end Meaning.Labeled

def Tags.hintOf (i : Tags) (r : Var) : Option String := (i r).bind Tag.hint

namespace Store

variable {s : Store} {θ : Valuation}

/-- Reading a first-order type labels its tree. -/
theorem Reads.labeled (hs : s.Reads θ) {k : Nat} {t : Ty} {nm nm' : Naming} {n : NamedType}
    {m : Meaning} (hrun : (s.readType k t).run nm = some (n, nm')) (ht : t.Fits s.size)
    (hft : t.FirstOrder []) (hm : Denotes [] θ t m) : m.Labeled s.tags.hintOf nm n nm' := by
  refine readType_induction (motive := fun _ t nm n nm' => t.Fits s.size → t.FirstOrder [] →
    ∀ m, Denotes [] θ t m → m.Labeled s.tags.hintOf nm n nm')
    ?bound ?poisoned ?unbound ?func ?expanded ?app ?record hrun ht hft m hm
  case bound =>
    intro _ v t nm n nm' hc ih _ _ m hm
    have hk : s.kind v = .bound t := kind_eq_bound.mpr hc
    have hterm := (hs.firstOrder.terms v t hk).1
    have hbound := hs.reading.bound v t hk
    rw [hs.aliases] at hterm hbound
    rw [Denotes.var_iff.mp hm]
    exact ih (hs.firstOrder.fits v t hk) hterm _ hbound
  case poisoned =>
    intro _ v _ hc ht
    exact absurd (kind_eq_poisoned.mpr hc) (hs.firstOrder.healthy v (ht.lt (by simp)))
  case unbound =>
    intro _ v rank hint nm hc _ _ m hm
    have hroot := hs.firstOrder.forest.root_root v
    have htag : s.tags (s.root v) = some ⟨rank, hint⟩ :=
      tags_of_unbound hroot (by rw [hs.firstOrder.forest.content_root, hc])
    have hhint : s.tags.hintOf (s.root v) = hint := by rw [Tags.hintOf, htag]; rfl
    rw [Denotes.var_iff.mp hm, hs.reading.free v (kind_eq_free.mpr ⟨rank, hint, hc⟩)]
    rw [← hhint]
    exact .var
  case func =>
    intro _ arg ret nm a nm1 r nm' iha ihr ht hft m hm
    obtain ⟨hfa, hfr⟩ := Ty.over_func.mp ht
    obtain ⟨ma, mr, rfl, hma, hmr⟩ := Denotes.func_iff.mp hm
    cases hft with | func ha hr => exact .func (iha hfa ha ma hma) (ihr hfr hr mr hmr)
  case expanded => exact fun hex _ _ hft => absurd (hs.aliases ▸ hex) (hft.expand_ne _)
  case app =>
    intro _ name args nm ts nm' hne hts ht hft m hm
    obtain ⟨ms, rfl, hms⟩ := (Denotes.app_iff hft.expand_ne).mp hm
    have hfits := Ty.over_app.mp ht
    cases hft with
    | app hname hargs =>
      clear hm hname ht hne
      induction hts generalizing ms with
      | nil => cases hms; exact .nil
      | cons ha _ ihs =>
        cases hms with
        | cons hma hms =>
          exact .cons (ha (hfits _ (.head _)) (hargs _ (.head _)) _ hma)
            (ihs _ hms (fun b hb => hfits b (.tail _ hb)) fun b hb => hargs b (.tail _ hb))
  case record => exact fun _ _ _ hft => by cases hft

end Store

theorem Twins.SameOffer.polytype_eq {s1 s2 : Store} {θ1 θ2 : Valuation} {qs1 qs2 : List Var}
    {t1 t2 : Ty} {m : Meaning} {ρ : Var → Var} (h : SameOffer s1 θ1 qs1 t1 s2 θ2 qs2 t2 m ρ)
    (h1 : s1.Reads θ1) (h2 : s2.Reads θ2) {k1 k2 : Nat} {p1 p2 : Polytype}
    (hp1 : s1.polytype k1 qs1 t1 = some p1) (hp2 : s2.polytype k2 qs2 t2 = some p2) : p2 = p1 := by
  obtain ⟨⟨n1, nm1⟩, hrun1, rfl⟩ := Option.map_eq_some_iff.mp hp1
  obtain ⟨⟨n2, nm2⟩, hrun2, rfl⟩ := Option.map_eq_some_iff.mp hp2
  have hl1 := h1.labeled hrun1 h.left.fits h.left.firstOrder h.left.denotes
  have hl2 := h2.labeled hrun2 h.right.fits h.right.firstOrder h.right.denotes
  have hplain := (h1.live h.left.firstOrder h.left.fits h.left.denotes).plain
  have hhint : ∀ r, m.Mentions r → s2.tags.hintOf (ρ r) = s1.tags.hintOf r := fun r hr => by
    have hmap : ∀ i : Option Tag, i.bind Tag.hint = (i.map Tag.hint).bind id := fun i => by
      cases i <;> rfl
    rw [Tags.hintOf, Tags.hintOf, hmap, h.hints r hr, ← hmap]
  obtain ⟨rfl, ha⟩ := hl1.renamed hl2 (V := m.Mentions) (fun _ hr => hr) hhint
    ⟨h.inj, fun r hr => ⟨h.left.closed r hr,
      h.right.closed _ (hplain.mentions_renamed.mpr ⟨r, hr, rfl⟩)⟩, nofun, rfl, rfl, rfl⟩
  simp only [ha.order]

end TypeSolver
