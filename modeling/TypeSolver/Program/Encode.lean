import TypeSolver.Json
import TypeSolver.Program

/-!
# TypeSolver.Program.Encode

Programs as JSON, with all their members.
-/

namespace TypeSolver

def Position.toJson (p : Position) : Json :=
  .object [("line", .nat p.line.toNat), ("column", .nat p.column.toNat)]

def Span.toJson (s : Span) : Json :=
  .object [("start", s.start.toJson), ("end", s.stop.toJson)]

def Literal.toJson : Literal → Json
  | .int n => .object [("int", .int n.toInt)]
  | .float x => .object [("float", .float x)]
  | .char c => .object [("char", .string (String.singleton c))]
  | .string s => .object [("string", .string s)]
  | .bool b => .object [("bool", .bool b)]

mutual

def Pattern.toJson : Pattern → Json
  | ⟨span, form⟩ => .object (("span", span.toJson) :: form.members)

def PatternForm.members : PatternForm → List (String × Json)
  | .wildcard => [("kind", .string "wildcard")]
  | .var name => [("kind", .string "var"), ("name", .string name)]
  | .literal value => [("kind", .string "literal"), ("value", value.toJson)]
  | .ctor name args =>
    [("kind", .string "ctor"), ("name", .string name), ("args", .array (Pattern.toJsonList args))]
  | .record fields =>
    [("kind", .string "record"), ("fields", .array (fields.map .string))]
  | .named inner name =>
    [("kind", .string "as"), ("pattern", inner.toJson), ("name", .string name)]

def Pattern.toJsonList : List Pattern → List Json
  | [] => []
  | p :: ps => p.toJson :: Pattern.toJsonList ps

end

mutual

def Expr.toJson : Expr → Json
  | ⟨id, span, form⟩ =>
    .object (("id", .nat id.toNat) :: ("span", span.toJson) :: form.members)

def ExprForm.members : ExprForm → List (String × Json)
  | .literal value => [("kind", .string "literal"), ("value", value.toJson)]
  | .var name => [("kind", .string "var"), ("name", .string name)]
  | .lambda params body =>
    [("kind", .string "lambda"), ("params", .array (Pattern.toJsonList params)),
      ("body", body.toJson)]
  | .apply func args =>
    [("kind", .string "apply"), ("func", func.toJson), ("args", .array (Expr.toJsonList args))]
  | .letIn defs body =>
    [("kind", .string "let"), ("defs", .array (Def.toJsonList defs)), ("body", body.toJson)]
  | .case scrutinee branches =>
    [("kind", .string "case"), ("scrutinee", scrutinee.toJson),
      ("branches", .array (Branch.toJsonList branches))]
  | .ite cond onTrue onFalse =>
    [("kind", .string "if"), ("cond", cond.toJson), ("then_branch", onTrue.toJson),
      ("else_branch", onFalse.toJson)]
  | .list items => [("kind", .string "list"), ("items", .array (Expr.toJsonList items))]
  | .record fields => [("kind", .string "record"), ("fields", .array (Field.toJsonList fields))]
  | .access record field =>
    [("kind", .string "access"), ("record", record.toJson), ("field", .string field)]
  | .update record fields =>
    [("kind", .string "update"), ("record", record.toJson),
      ("fields", .array (Field.toJsonList fields))]

def Def.toJson : Def → Json
  | ⟨name, params, body, span⟩ =>
    .object [("name", .string name), ("params", .array (Pattern.toJsonList params)),
      ("body", body.toJson), ("span", span.toJson)]

def Branch.toJson : Branch → Json
  | ⟨pattern, body, span⟩ =>
    .object [("pattern", pattern.toJson), ("body", body.toJson), ("span", span.toJson)]

def Field.toJson : Field → Json
  | ⟨name, value⟩ => .object [("name", .string name), ("value", value.toJson)]

def Expr.toJsonList : List Expr → List Json
  | [] => []
  | e :: es => e.toJson :: Expr.toJsonList es

def Def.toJsonList : List Def → List Json
  | [] => []
  | d :: ds => d.toJson :: Def.toJsonList ds

def Branch.toJsonList : List Branch → List Json
  | [] => []
  | b :: bs => b.toJson :: Branch.toJsonList bs

def Field.toJsonList : List Field → List Json
  | [] => []
  | f :: fs => f.toJson :: Field.toJsonList fs

end

def Group.toJson (g : Group) : Json := .object [("defs", .array (Def.toJsonList g.defs))]

def Program.toJson (p : Program) : Json := .object [("groups", .array (p.groups.map Group.toJson))]

end TypeSolver
