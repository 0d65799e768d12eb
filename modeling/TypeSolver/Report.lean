import TypeSolver.Infer
import TypeSolver.Json
import TypeSolver.Program.Encode

/-!
# TypeSolver.Report

Results of inference as JSON: the types of a program, and diagnostics.
-/

namespace TypeSolver

namespace NamedType

mutual

def toJson : NamedType → Json
  | .var name => .object [("kind", .string "var"), ("name", .string name)]
  | .func arg ret => .object [("kind", .string "func"), ("arg", arg.toJson), ("ret", ret.toJson)]
  | .app name args =>
    .object [("kind", .string "app"), ("name", .string name), ("args", .array (toJsonList args))]
  | .record fields ext =>
    .object [("kind", .string "record"), ("fields", .object (toJsonFields fields)),
      ("ext", ext.elim .null .string)]
  | .error => .object [("kind", .string "error")]

def toJsonList : List NamedType → List Json
  | [] => []
  | t :: ts => t.toJson :: toJsonList ts

def toJsonFields : List (String × NamedType) → List (String × Json)
  | [] => []
  | (name, t) :: fs => (name, t.toJson) :: toJsonFields fs

end

end NamedType

def Polytype.toJson (p : Polytype) : Json :=
  .object [("vars", .array (p.vars.map .string)), ("ty", p.ty.toJson)]

def TypedProgram.toJson (p : TypedProgram) : Json :=
  .object
    [("bindings", .object (p.bindings.map fun (name, t) => (name, t.toJson))),
     ("node_types", .object (p.nodeTypes.map fun (id, t) => (toString id.toNat, t.toJson)))]

def Label.toJson (l : Label) : Json :=
  .object [("message", .string l.message), ("span", l.span.toJson)]

def Diagnostic.toJson (d : Diagnostic) : Json :=
  .object
    [("code", .string d.code), ("message", .string d.message), ("span", d.span.toJson),
     ("labels", .array (d.labels.map Label.toJson))]

def TypeError.toJson (e : TypeError) : Json :=
  let place := [("span", e.span.toJson), ("checkpoint", e.checkpoint.elim .null Span.toJson)]
  match e.mismatch with
  | .shape expected actual =>
    .object ([("kind", .string "mismatch"), ("expected", expected.toJson),
      ("actual", actual.toJson)] ++ place)
  | .occurs var ty =>
    .object ([("kind", .string "occurs_check"), ("var", var.toJson), ("ty", ty.toJson)] ++ place)
  | .fields missing extra expected actual =>
    .object ([("kind", .string "record_field_mismatch"),
      ("missing", .array (missing.map .string)), ("extra", .array (extra.map .string)),
      ("expected", expected.toJson), ("actual", actual.toJson)] ++ place)

end TypeSolver
