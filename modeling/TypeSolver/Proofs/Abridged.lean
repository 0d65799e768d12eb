import TypeSolver.Program.Decode
import TypeSolver.Program.Encode
import TypeSolver.Proofs.Fields
import TypeSolver.Signature.Encode

/-!
# TypeSolver.Proofs.Abridged

Encodings without their defaults. The full encoding of a program gives all members; a member that
has its default may be left out, each on its own, at every depth (`Abridged`).

What a decoder needs of the members of an object is that the full ones have different names, that
those it asks for are there or have their defaults, and that they are not nested too deeply (`Part`).
-/

namespace TypeSolver
namespace Json

/-- What an object of the given kind may leave out: its span, the parameters of a definition or an
alias, the arguments of a constructor in a pattern or a type, the extension of a record type. -/
def defaults : Option String → List (String × Json)
  | none => [("span", Span.toJson {}), ("params", .array [])]
  | some "ctor" => [("span", Span.toJson {}), ("args", .array [])]
  | some "con" => [("args", .array [])]
  | some "record" => [("span", Span.toJson {}), ("ext", .null)]
  | some _ => [("span", Span.toJson {})]

def kindOf (ms : List (String × Json)) : Option String := (Assoc.get? ms "kind").bind asString

mutual

/-- The second value is the first, with any of its defaults left out. -/
inductive Abridged : Json → Json → Prop where
  | self {j : Json} : Abridged j j
  | array {js js' : List Json} : AllAbridged js js' → Abridged (.array js) (.array js')
  | object {ms ms' : List (String × Json)} : Thinned (defaults (kindOf ms)) ms ms' →
      Abridged (.object ms) (.object ms')

inductive AllAbridged : List Json → List Json → Prop where
  | nil : AllAbridged [] []
  | cons {j j' : Json} {js js' : List Json} : Abridged j j' → AllAbridged js js' →
      AllAbridged (j :: js) (j' :: js')

/-- The members, without some of those that may be omitted. -/
inductive Thinned : List (String × Json) → List (String × Json) → List (String × Json) → Prop where
  | nil {omissible : List (String × Json)} : Thinned omissible [] []
  | kept {omissible ms ms' : List (String × Json)} {name : String} {j j' : Json} :
      Abridged j j' → Thinned omissible ms ms' →
      Thinned omissible ((name, j) :: ms) ((name, j') :: ms')
  | omitted {omissible ms ms' : List (String × Json)} {name : String} {j : Json} :
      (name, j) ∈ omissible → Thinned omissible ms ms' → Thinned omissible ((name, j) :: ms) ms'

end

variable {js : List Json} {room : Nat} {ms : List (String × Json)} {j : Json}

theorem AllAbridged.forall₂ {js' : List Json} (h : AllAbridged js js') :
    List.Forall₂ Abridged js js' := by
  induction js generalizing js' with
  | nil => cases h; exact .nil
  | cons j js ih => cases h with | cons hj h => exact .cons hj (ih h)

namespace Thinned

variable {omissible ms ms' : List (String × Json)}

theorem self (ms : List (String × Json)) : Thinned omissible ms ms := by
  induction ms with
  | nil => exact .nil
  | cons m ms ih => exact .kept .self ih

variable (h : Thinned omissible ms ms')

include h

theorem keys_sublist : (Assoc.keys ms').Sublist (Assoc.keys ms) := by
  induction ms generalizing ms' with
  | nil => cases h; exact .refl _
  | cons m ms ih =>
    cases h with
    | kept _ h => exact (ih h).cons_cons _
    | omitted _ h => exact (ih h).cons _

variable {name : String}

theorem get?_cases (hkeys : (Assoc.keys ms).Nodup) (hget : Assoc.get? ms name = some j) :
    (∃ j', Assoc.get? ms' name = some j' ∧ Abridged j j') ∨
      (name, j) ∈ omissible ∧ Assoc.get? ms' name = none := by
  induction ms generalizing ms' with
  | nil => cases hget
  | cons m ms ih =>
    obtain ⟨k, a⟩ := m
    obtain ⟨hk, hkeys⟩ := List.nodup_cons.mp hkeys
    by_cases hname : name = k
    · subst hname
      obtain rfl : a = j := by simpa [Assoc.get?] using hget
      cases h with
      | kept ha _ => exact .inl ⟨_, by simp [Assoc.get?], ha⟩
      | omitted ho h =>
        exact .inr ⟨ho, Assoc.get?_eq_none_iff.mpr fun hmem => hk (h.keys_sublist.subset hmem)⟩
    · rw [Assoc.get?, if_neg hname] at hget
      cases h with
      | kept _ h => rw [Assoc.get?, if_neg hname]; exact ih h hkeys hget
      | omitted _ h => exact ih h hkeys hget

theorem exists_mem {j' : Json} (hmem : (name, j') ∈ ms') : ∃ j, (name, j) ∈ ms ∧ Abridged j j' := by
  induction ms generalizing ms' with
  | nil => cases h; cases hmem
  | cons m ms ih =>
    cases h with
    | @kept _ _ _ _ j _ hj h =>
      rcases List.mem_cons.mp hmem with heq | hmem
      · cases heq; exact ⟨j, by simp, hj⟩
      · exact (ih h hmem).imp fun j hj => ⟨by simp [hj.1], hj.2⟩
    | omitted _ h => exact (ih h hmem).imp fun j hj => ⟨by simp [hj.1], hj.2⟩

theorem forall₂ (hkept : ∀ m ∈ ms, m ∉ omissible) :
    List.Forall₂ (fun m m' => m'.1 = m.1 ∧ Abridged m.2 m'.2) ms ms' := by
  induction ms generalizing ms' with
  | nil => cases h; exact .nil
  | cons m ms ih =>
    cases h with
    | kept hj h => exact .cons ⟨rfl, hj⟩ (ih h fun m hm => hkept m (by simp [hm]))
    | omitted ho _ => exact absurd ho (hkept _ (by simp))

end Thinned

theorem fitsAll_iff : fitsAll room js = true ↔ ∀ j ∈ js, j.fits room = true := by
  induction js with
  | nil => simp [fitsAll]
  | cons j js ih => simp [fitsAll, ih]

theorem fitsMembers_iff : fitsMembers room ms = true ↔ ∀ m ∈ ms, m.2.fits room = true := by
  induction ms with
  | nil => simp [fitsMembers]
  | cons m ms ih => simp [fitsMembers, ih]

theorem fits_succ (h : j.fits room = true) : j.fits (room + 1) = true := by
  induction room generalizing j with
  | zero => cases j <;> first | exact h | cases h
  | succ room ih =>
    cases j with
    | array js => exact fitsAll_iff.mpr fun j hj => ih (fitsAll_iff.mp h j hj)
    | object ms => exact fitsMembers_iff.mpr fun m hm => ih (fitsMembers_iff.mp h m hm)
    | _ => exact h

variable {α β : Type} {x : α} {item : Json → Option α}

/-- Whatever defaults are left out, the value is decoded to `x` if it fits. -/
def Decodes (room : Nat) (item : Json → Option α) (j : Json) (x : α) : Prop :=
  ∀ j', Abridged j j' → j'.fits room = true → item j' = some x

/-- These are the members `ms` of an encoding, without some defaults, in a value with this room. -/
structure Part (room : Nat) (ms ms' : List (String × Json)) : Prop where
  nodup : (Assoc.keys ms).Nodup
  thinned : Thinned (defaults (kindOf ms)) ms ms'
  fits : ∀ m ∈ ms', m.2.fits room = true

namespace Decodes

theorem succ (h : Decodes (room + 1) item j x) : Decodes room item j x :=
  fun j' hj hfits => h j' hj (fits_succ hfits)

theorem of_pos (h : ∀ r, room = r + 1 → Decodes room item (.object ms) x) :
    Decodes room item (.object ms) x := by
  cases room with
  | zero => rintro _ (_ | _) ⟨⟩
  | succ r => exact h r rfl

theorem object (hkeys : (Assoc.keys ms).Nodup)
    (h : ∀ r ms', room = r + 1 → Part r ms ms' → item (.object ms') = some x) :
    Decodes room item (.object ms) x := by
  refine of_pos ?_
  rintro r rfl j hj hfits
  cases hj with
  | self => exact h r ms rfl ⟨hkeys, .self ms, fitsMembers_iff.mp hfits⟩
  | object hms => exact h r _ rfl ⟨hkeys, hms, fitsMembers_iff.mp hfits⟩

theorem array {toJson : α → Json} {xs : List α} {f : Json → Option (List α)}
    (hjs : js = xs.map toJson) (h : ∀ r, room = r + 1 → ∃ item, f = asList item ∧
      ∀ x ∈ xs, Decodes r item (toJson x) x) : Decodes room f (.array js) xs := by
  subst hjs
  intro j hj hfits
  obtain ⟨js, rfl, hjs⟩ : ∃ js, j = .array js ∧ List.Forall₂ Abridged (xs.map toJson) js := by
    cases hj with
    | self => exact ⟨_, rfl, List.forall₂_same.mpr fun _ _ => .self⟩
    | array h => exact ⟨_, rfl, h.forall₂⟩
  cases room with
  | zero => cases hfits
  | succ r =>
    obtain ⟨item, rfl, hitem⟩ := h r rfl
    replace hfits := fitsAll_iff.mp hfits
    rw [List.forall₂_map_left_iff] at hjs
    clear hj h
    induction hjs with
    | nil => rfl
    | @cons x j xs js hj _ ih =>
      rw [List.forall_mem_cons] at hitem hfits
      have hrest : js.mapM item = some xs := ih hitem.2 hfits.2
      rw [asList, List.mapM_cons, hitem.1 j hj hfits.1, hrest]
      rfl

theorem list {toJson : α → Json} {xs : List α} (hjs : js = xs.map toJson)
    (h : ∀ x ∈ xs, Decodes room item (toJson x) x) : Decodes room (asList item) (.array js) xs :=
  array hjs fun _ hr => ⟨item, rfl, fun x hx => succ (hr ▸ h x hx)⟩

theorem listWithin {toJson : α → Json} {item : Nat → Json → Option α} {xs : List α}
    (hjs : js = xs.map toJson) (h : ∀ r, r ≤ room → ∀ x, Decodes r (item r) (toJson x) x) :
    Decodes room (listWithin item room) (.array js) xs :=
  array hjs fun r hr => ⟨item r, by rw [hr]; rfl, fun x _ => h r (by omega) x⟩

theorem string (s : String) : Decodes room asString (.string s) s :=
  fun j hj _ => by cases hj; rfl

theorem strings (names : List String) :
    Decodes room (asList asString) (.array (names.map .string)) names :=
  list rfl fun s _ => string s

end Decodes

theorem defaults_subset (kind : Option String) : defaults kind ⊆
    [("span", Span.toJson {}), ("params", .array []), ("args", .array []), ("ext", .null)] := by
  unfold defaults
  split <;> simp

def plain? (ms : List (String × Json)) (name : String) : Option Json :=
  if name ∈ ["span", "params", "args", "ext"] then none else Assoc.get? ms name

namespace Part

variable {ms' : List (String × Json)} {name : String} {f : α → Option β} {b : Option β}

variable (h : Part room ms ms')

include h

theorem areSingle (names : List String) : areSingle names ms' = true := by
  rw [Json.areSingle, List.all_eq_true]
  intro name _
  rw [decide_eq_true_eq]
  have hcount := List.nodup_iff_count.mp (h.nodup.sublist h.thinned.keys_sublist) name
  rwa [Assoc.keys, List.count, List.countP_map, List.countP_eq_length_filter] at hcount

theorem asStruct {names : List String} {f : List (String × Json) → Option β} (hf : f ms' = b) :
    asStruct names (.object ms') >>= f = b := by
  rw [Json.asStruct, if_pos (h.areSingle names)]
  exact hf

theorem decoded (hget : Assoc.get? ms name = some j) (hitem : Decodes room item j x) :
    (∃ j', Assoc.get? ms' name = some j' ∧ item j' = some x) ∨
      (name, j) ∈ defaults (kindOf ms) ∧ Assoc.get? ms' name = none :=
  (h.thinned.get?_cases h.nodup hget).imp_left fun ⟨j', hj', hj⟩ =>
    ⟨j', hj', hitem j' hj (h.fits _ (Assoc.mem_of_get? hj'))⟩

theorem optional {default : α} (hget : Assoc.get? ms name = some j)
    (hdefault : (name, j) ∈ defaults (kindOf ms) → x = default) (hitem : Decodes room item j x)
    (hf : f x = b) : optional ms' name default item >>= f = b := by
  rw [Json.optional]
  rcases h.decoded hget hitem with ⟨j', hj', hx⟩ | ⟨ho, hnone⟩
  · rw [hj', ← hf]
    exact congrArg (· >>= f) hx
  · rw [hnone, ← hdefault ho]
    exact hf

theorem kept (hget : Assoc.get? ms name = some j) (hkept : (name, j) ∉ defaults (kindOf ms))
    (hitem : Decodes room item j x) (hf : f x = b) : Json.required ms' name item >>= f = b := by
  obtain ⟨j', hj', hx⟩ := (h.decoded hget hitem).resolve_right fun h => hkept h.1
  rw [Json.required, hj', ← hf]
  exact congrArg (· >>= f) hx

theorem required (hget : plain? ms name = some j) (hitem : Decodes room item j x) (hf : f x = b) :
    Json.required ms' name item >>= f = b := by
  rw [plain?, Option.ite_none_left_eq_some] at hget
  refine h.kept hget.2 (fun hmem => hget.1 ?_) hitem hf
  exact List.mem_map_of_mem (f := Prod.fst) (defaults_subset _ hmem)

theorem string {s : String} {f : String → Option β} (hget : plain? ms name = some (.string s))
    (hf : f s = b) : Json.required ms' name asString >>= f = b :=
  h.required hget (.string s) hf

theorem kind {kind : String} {kinds : List String} {held : Bool} {f : String → Option β}
    (hget : Assoc.get? ms "kind" = some (.string kind)) (hkind : kind ∈ kinds) (hf : f kind = b) :
    Json.required ms' "kind" (asTag kinds held) >>= f = b :=
  h.required hget (fun j hj _ => by cases hj; exact if_pos hkind) hf

theorem kindMembers {kind : String} {shared kinds : List String} {own : String → List String}
    {f : String × List (String × Json) → Option β}
    (hget : Assoc.get? ms "kind" = some (.string kind)) (hkind : kind ∈ kinds)
    (hf : f (kind, ms') = b) : kindMembers shared kinds own (.object ms') >>= f = b := by
  have hms : TypeSolver.kindMembers shared kinds own (.object ms') = some (kind, ms') := by
    rw [TypeSolver.kindMembers, membersOf, if_pos (h.areSingle _)]
    exact h.kind hget hkind (if_pos (h.areSingle _))
  rw [hms]
  exact hf

end Part

end Json
end TypeSolver
