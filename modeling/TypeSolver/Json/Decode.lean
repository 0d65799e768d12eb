import TypeSolver.Assoc
import TypeSolver.Json

/-!
# TypeSolver.Json.Decode

Taking JSON values apart. A decoder gives `none` for a value of the wrong form. Where `room` is
an argument, it is the number of arrays and objects that may still be opened.
-/

namespace TypeSolver
namespace Json

variable {α : Type}

/-- How many arrays and objects may be open at once in a text. -/
def nesting : Nat := 127

def asBool : Json → Option Bool
  | .bool b => some b
  | _ => none

def asString : Json → Option String
  | .string s => some s
  | _ => none

def asChar : Json → Option Char
  | .string s =>
    match s.toList with
    | [c] => some c
    | _ => none
  | _ => none

/-- An integer from `lo` up to, and not including, `hi`. -/
def asIntIn (lo hi : Int) : Json → Option Int
  | .int n => if lo ≤ n ∧ n < hi then some n else none
  | _ => none

def asInt64 (j : Json) : Option Int64 :=
  (asIntIn (-0x8000000000000000) 0x8000000000000000 j).map Int64.ofInt

def asUInt32 (j : Json) : Option UInt32 :=
  (asIntIn 0 0x100000000 j).map fun n => n.toNat.toUInt32

def asUInt64 (j : Json) : Option UInt64 :=
  (asIntIn 0 0x10000000000000000 j).map fun n => n.toNat.toUInt64

/-- A number; an integer is rounded. -/
def asFloat : Json → Option Binary64
  | .int n => some (.ofInt n)
  | .float x => some x
  | _ => none

def asList (item : Json → Option α) : Json → Option (List α)
  | .array js => js.mapM item
  | _ => none

/-- An object as a map. Of equal names the last decides, but each value must have the right
form. -/
def asMap (item : Json → Option α) : Json → Option (List (String × α))
  | .object ms =>
    (ms.mapM fun m => (item m.2).map fun a => (m.1, a)).map Assoc.ofList
  | _ => none

def listWithin (item : Nat → Json → Option α) : Nat → Json → Option (List α)
  | room + 1, j => asList (item room) j
  | 0, _ => none

def mapWithin (item : Nat → Json → Option α) : Nat → Json → Option (List (String × α))
  | room + 1, j => asMap (item room) j
  | 0, _ => none

/-- Every one of `names` is the name of one member at most. -/
def areSingle (names : List String) (ms : List (String × Json)) : Bool :=
  names.all fun name => decide ((ms.filter fun (n, _) => n == name).length ≤ 1)

/-- The known members of a structure. An object gives them by name, each once at most, next to
any members that are not known; an array gives them by position, and the last may be missing. -/
def asStruct (names : List String) : Json → Option (List (String × Json))
  | .object ms => if areSingle names ms then some ms else none
  | .array js => if js.length ≤ names.length then some (names.zip js) else none
  | _ => none

def required (ms : List (String × Json)) (name : String) (item : Json → Option α) : Option α :=
  match Assoc.get? ms name with
  | some j => item j
  | none => none

def optional (ms : List (String × Json)) (name : String) (default : α)
    (item : Json → Option α) : Option α :=
  match Assoc.get? ms name with
  | some j => item j
  | none => some default

/-- One of several tags. Inside a value that is held as a whole, a tag may also be given by its
position. -/
def asTag (tags : List String) (held : Bool) : Json → Option String
  | .string s => if s ∈ tags then some s else none
  | .int n => if held ∧ 0 ≤ n then tags[n.toNat]? else none
  | _ => none

end Json
end TypeSolver
