import TypeSolver.Alias
import TypeSolver.Json

/-!
# TypeSolver.Signature.Encode

Signatures and aliases as JSON, with all their members.
-/

namespace TypeSolver
namespace Signature

mutual

def toJson : Signature → Json
  | .var name => .object [("kind", .string "var"), ("name", .string name)]
  | .con name args =>
    .object [("kind", .string "con"), ("name", .string name), ("args", .array (toJsonList args))]
  | .func arg ret =>
    .object [("kind", .string "func"), ("arg", arg.toJson), ("ret", ret.toJson)]
  | .record fields ext =>
    .object [("kind", .string "record"), ("fields", .object (toJsonFields fields)),
      ("ext", ext.elim .null .string)]

def toJsonList : List Signature → List Json
  | [] => []
  | t :: ts => t.toJson :: toJsonList ts

def toJsonFields : List (String × Signature) → List (String × Json)
  | [] => []
  | (name, t) :: fs => (name, t.toJson) :: toJsonFields fs

end

end Signature

def Alias.toJson (a : Alias) : Json :=
  .object [("params", .array (a.params.map .string)), ("body", a.body.toJson)]

end TypeSolver
