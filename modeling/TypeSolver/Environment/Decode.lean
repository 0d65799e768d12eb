import TypeSolver.Infer
import TypeSolver.Json.Reader
import TypeSolver.Program.Decode
import TypeSolver.Signature.Decode

/-!
# TypeSolver.Environment.Decode

Environments and modules from JSON.
-/

namespace TypeSolver

open Json

def Constructor.ofJson : Nat → Json → Option Constructor
  | 0, _ => none
  | room + 1, j => do
    let ms ← asStruct ["result", "params", "args"] j
    let result ← required ms "result" asString
    let params ← optional ms "params" [] (listWithin (fun _ => asString) room)
    let args ← optional ms "args" [] (listWithin Signature.ofJson room)
    pure ⟨result, params, args⟩

def Environment.ofJson : Nat → Json → Option Environment
  | 0, _ => none
  | room + 1, j => do
    let ms ← asStruct ["aliases", "constructors", "values"] j
    let aliases ← optional ms "aliases" [] (mapWithin Alias.ofJson room)
    let constructors ← optional ms "constructors" [] (mapWithin Constructor.ofJson room)
    let values ← optional ms "values" [] (mapWithin Signature.ofJson room)
    pure ⟨aliases, constructors, values⟩

def Module.ofJson : Nat → Json → Option Module
  | 0, _ => none
  | room + 1, j => do
    let ms ← asStruct ["environment", "program"] j
    let environment ← optional ms "environment" {} (Environment.ofJson room)
    let program ← required ms "program" (Program.ofJson room)
    pure ⟨environment, program⟩

/-- The module that a JSON text describes. -/
def Module.read (text : String) : Option Module :=
  match Json.read text with
  | some j => Module.ofJson nesting j
  | none => none

end TypeSolver
