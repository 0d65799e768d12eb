import TypeSolver.Alias
import TypeSolver.Json.Decode

/-!
# TypeSolver.Signature.Decode

Signatures and aliases from JSON. A signature is an object with a member `kind`, or an array of
its kind and its members.
-/

namespace TypeSolver

open Json

namespace Signature

def kinds : List String := ["var", "con", "func", "record"]

/-- The members of a signature of the given kind, in order. -/
def memberNames : String → List String
  | "var" => ["name"]
  | "con" => ["name", "args"]
  | "func" => ["arg", "ret"]
  | _ => ["fields", "ext"]

def parts (held : Bool) : Json → Option (String × List (String × Json))
  | .object ms => do
    if areSingle ["kind"] ms then
      let kind ← required ms "kind" (asTag kinds held)
      let ms ← asStruct (memberNames kind) (.object ms)
      pure (kind, ms)
    else none
  | .array (j :: js) => do
    let kind ← asTag kinds held j
    let ms ← asStruct (memberNames kind) (.array js)
    pure (kind, ms)
  | _ => none

def extension : Json → Option (Option String)
  | .null => some none
  | .string s => some (some s)
  | _ => none

/-- A signature in a value that is known to fit; `fuel` bounds the nesting. -/
def ofPart : Nat → Bool → Json → Option Signature
  | 0, _, _ => none
  | fuel + 1, held, j => do
    let (kind, ms) ← parts held j
    match kind with
    | "var" =>
      let name ← required ms "name" asString
      pure (.var name)
    | "con" =>
      let name ← required ms "name" asString
      let args ← optional ms "args" [] (asList (ofPart fuel true))
      pure (.con name args)
    | "func" =>
      let arg ← required ms "arg" (ofPart fuel true)
      let ret ← required ms "ret" (ofPart fuel true)
      pure (.func arg ret)
    | _ =>
      let fields ← required ms "fields" (asMap (ofPart fuel true))
      let ext ← optional ms "ext" none extension
      pure (.record fields ext)

/-- A signature within the given room. All of it counts, also members that are not known. -/
def ofJson (room : Nat) (j : Json) : Option Signature :=
  if j.fits room then ofPart nesting false j else none

end Signature

def Alias.ofJson : Nat → Json → Option Alias
  | 0, _ => none
  | room + 1, j => do
    let ms ← asStruct ["params", "body"] j
    let params ← optional ms "params" [] (listWithin (fun _ => asString) room)
    let body ← required ms "body" (Signature.ofJson room)
    pure ⟨params, body⟩

end TypeSolver
