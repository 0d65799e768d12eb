import TypeSolver.Span
import TypeSolver.Unify

/-!
# TypeSolver.TypeError

Faults found in a program. A type error is recorded and solving goes on; a fatal error ends it.
-/

namespace TypeSolver

/-- A mismatch, the place of the demand that failed, and the definition or branch around it. -/
structure TypeError where
  mismatch : Mismatch
  span : Span
  checkpoint : Option Span

structure Label where
  message : String
  span : Span

structure Diagnostic where
  code : String
  message : String
  span : Span
  labels : List Label

namespace TypeError

def code (e : TypeError) : String :=
  match e.mismatch with
  | .shape _ _ => "E3001"
  | .occurs _ _ => "E3002"
  | .fields _ _ _ _ => "E3003"

def message (e : TypeError) : String :=
  match e.mismatch with
  | .shape expected actual =>
    "type mismatch: expected " ++ expected.text ++ ", found " ++ actual.text
  | .occurs var ty =>
    "infinite type: " ++ var.text ++ " would have to contain itself in " ++ ty.text
  | .fields _ _ expected actual =>
    "record mismatch: expected " ++ expected.text ++ ", found " ++ actual.text

def fieldsLabel (title : String) (names : List String) (span : Span) : List Label :=
  if names.isEmpty then [] else [⟨title ++ ": " ++ ", ".intercalate names, span⟩]

/-- The labels name missing and unexpected fields first, then the surrounding definition. -/
def labels (e : TypeError) : List Label :=
  let fields :=
    match e.mismatch with
    | .fields missing extra _ _ =>
      fieldsLabel "missing fields" missing e.span ++ fieldsLabel "unexpected fields" extra e.span
    | _ => []
  fields ++ e.checkpoint.toList.map fun span => ⟨"in this definition", span⟩

def diagnostic (e : TypeError) : Diagnostic := ⟨e.code, e.message, e.span, e.labels⟩

end TypeError

/-- A name or signature that should not have come this far. -/
inductive FatalError where
  | unboundName (name : String) (span : Span)
  | unknownConstructor (name : String) (span : Span)
  | invalidSignature (name : String) (cause : SignatureError)

def FatalError.message : FatalError → String
  | .unboundName name _ => s!"internal error: no scheme for '{name}' is in scope"
  | .unknownConstructor name _ => s!"internal error: unknown constructor '{name}'"
  | .invalidSignature name cause => s!"invalid signature for '{name}': " ++ cause.message

end TypeSolver
