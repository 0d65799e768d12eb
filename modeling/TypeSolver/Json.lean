import TypeSolver.Binary64

/-!
# TypeSolver.Json

JSON values. Members of an object keep the order in which they were written, and equal names are
kept apart. A text may be well formed and still have no value: a number beyond the greatest
double, or a string that escapes half of a surrogate pair. Such a text is `unreadable`, and so is
an object with such a string for a name.
-/

namespace TypeSolver

inductive Json where
  | null
  | bool (b : Bool)
  | int (n : Int)
  | float (x : Binary64)
  | string (s : String)
  | array (items : List Json)
  | object (members : List (String × Json))
  | unreadable

namespace Json

def nat (n : Nat) : Json := .int n

mutual

/-- The value can be read throughout, and no more than `room` arrays and objects are open at
once in it. -/
def fits : Nat → Json → Bool
  | _, .unreadable => false
  | 0, .array _ => false
  | 0, .object _ => false
  | room + 1, .array items => fitsAll room items
  | room + 1, .object members => fitsMembers room members
  | _, _ => true

def fitsAll : Nat → List Json → Bool
  | _, [] => true
  | room, j :: js => fits room j && fitsAll room js

def fitsMembers : Nat → List (String × Json) → Bool
  | _, [] => true
  | room, (_, j) :: ms => fits room j && fitsMembers room ms

end

end Json
end TypeSolver
