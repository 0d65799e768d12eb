import TypeSolver.Json.Decode
import TypeSolver.Program

/-!
# TypeSolver.Program.Decode

Programs from JSON. Definitions, branches, fields and spans are structures. Expressions and
patterns are objects with a member `kind`; all that is in them counts for the nesting, except in
the span of an outermost one.
-/

namespace TypeSolver

open Json

def Position.ofJson : Nat → Json → Option Position
  | 0, _ => none
  | _ + 1, j => do
    let ms ← asStruct ["line", "column"] j
    let line ← required ms "line" asUInt64
    let column ← required ms "column" asUInt64
    pure ⟨line, column⟩

def Span.ofJson : Nat → Json → Option Span
  | 0, _ => none
  | room + 1, j => do
    let ms ← asStruct ["start", "end"] j
    let start ← required ms "start" (Position.ofJson room)
    let stop ← required ms "end" (Position.ofJson room)
    pure ⟨start, stop⟩

def Literal.ofJson : Nat → Json → Option Literal
  | _ + 1, .object [("int", j)] => (asInt64 j).map .int
  | _ + 1, .object [("float", j)] => (asFloat j).map .float
  | _ + 1, .object [("char", j)] => (asChar j).map .char
  | _ + 1, .object [("string", j)] => (asString j).map .string
  | _ + 1, .object [("bool", j)] => (asBool j).map .bool
  | _, _ => none

def membersOf (names : List String) : Json → Option (List (String × Json))
  | .object ms => if areSingle names ms then some ms else none
  | _ => none

/-- The members of an object with a kind: those that all kinds have, and those of its own. -/
def kindMembers (shared : List String) (kinds : List String) (own : String → List String)
    (j : Json) : Option (String × List (String × Json)) := do
  let ms ← membersOf ("kind" :: shared) j
  let kind ← required ms "kind" (asTag kinds true)
  if areSingle (own kind) ms then pure (kind, ms) else none

/-- The span of an outermost value is within `room`, and all its other members but those of
`direct` fit there as a whole. -/
def fitsOutside (direct : List String) : Nat → Json → Bool
  | room + 1, .object ms => ms.all fun (name, j) =>
    if name = "span" then (Span.ofJson room j).isSome
    else decide (name ∈ direct) || j.fits room
  | _, _ => false

/-- Room for a span in a value that is known to fit. -/
def spanRoom : Nat := 2

namespace Pattern

def kinds : List String := ["wildcard", "var", "literal", "ctor", "record", "as"]

def memberNames : String → List String
  | "wildcard" => []
  | "var" => ["name"]
  | "literal" => ["value"]
  | "ctor" => ["name", "args"]
  | "record" => ["fields"]
  | _ => ["pattern", "name"]

/-- A pattern in a value that is known to fit; `fuel` bounds the nesting. -/
def ofPart : Nat → Json → Option Pattern
  | 0, _ => none
  | fuel + 1, j => do
    let (kind, ms) ← kindMembers ["span"] kinds memberNames j
    let span ← optional ms "span" {} (Span.ofJson spanRoom)
    match kind with
    | "wildcard" => pure ⟨span, .wildcard⟩
    | "var" =>
      let name ← required ms "name" asString
      pure ⟨span, .var name⟩
    | "literal" =>
      let value ← required ms "value" (Literal.ofJson 1)
      pure ⟨span, .literal value⟩
    | "ctor" =>
      let name ← required ms "name" asString
      let args ← optional ms "args" [] (asList (ofPart fuel))
      pure ⟨span, .ctor name args⟩
    | "record" =>
      let fields ← required ms "fields" (asList asString)
      pure ⟨span, .record fields⟩
    | _ =>
      let inner ← required ms "pattern" (ofPart fuel)
      let name ← required ms "name" asString
      pure ⟨span, .named inner name⟩

def ofJson (room : Nat) (j : Json) : Option Pattern :=
  if fitsOutside [] room j then ofPart nesting j else none

end Pattern

def Def.ofMembers (params : Json → Option (List Pattern)) (body : Json → Option Expr)
    (span : Json → Option Span) (j : Json) : Option Def := do
  let ms ← asStruct ["name", "params", "body", "span"] j
  let name ← required ms "name" asString
  let ps ← optional ms "params" [] params
  let b ← required ms "body" body
  let s ← optional ms "span" {} span
  pure ⟨name, ps, b, s⟩

def Branch.ofMembers (pattern : Json → Option Pattern) (body : Json → Option Expr)
    (span : Json → Option Span) (j : Json) : Option Branch := do
  let ms ← asStruct ["pattern", "body", "span"] j
  let p ← required ms "pattern" pattern
  let b ← required ms "body" body
  let s ← optional ms "span" {} span
  pure ⟨p, b, s⟩

def Field.ofMembers (value : Json → Option Expr) (j : Json) : Option Field := do
  let ms ← asStruct ["name", "value"] j
  let name ← required ms "name" asString
  let v ← required ms "value" value
  pure ⟨name, v⟩

namespace Expr

def kinds : List String :=
  ["literal", "var", "lambda", "apply", "let", "case", "if", "list", "record", "access", "update"]

def memberNames : String → List String
  | "literal" => ["value"]
  | "var" => ["name"]
  | "lambda" => ["params", "body"]
  | "apply" => ["func", "args"]
  | "let" => ["defs", "body"]
  | "case" => ["scrutinee", "branches"]
  | "if" => ["cond", "then_branch", "else_branch"]
  | "list" => ["items"]
  | "record" => ["fields"]
  | "access" => ["record", "field"]
  | _ => ["record", "fields"]

mutual

/-- An expression in a value that is known to fit; `fuel` bounds the nesting. -/
def ofPart : Nat → Json → Option Expr
  | 0, _ => none
  | fuel + 1, j => do
    let (kind, ms) ← kindMembers ["id", "span"] kinds memberNames j
    let id ← required ms "id" asUInt32
    let span ← optional ms "span" {} (Span.ofJson spanRoom)
    let form ← formOfPart fuel kind ms
    pure ⟨id, span, form⟩

def formOfPart : Nat → String → List (String × Json) → Option ExprForm
  | 0, _, _ => none
  | fuel + 1, kind, ms => do
    let def? := Def.ofMembers (asList (Pattern.ofPart nesting)) (ofPart fuel) (Span.ofJson spanRoom)
    let branch? := Branch.ofMembers (Pattern.ofPart nesting) (ofPart fuel) (Span.ofJson spanRoom)
    let field? := Field.ofMembers (ofPart fuel)
    match kind with
    | "literal" =>
      let value ← required ms "value" (Literal.ofJson 1)
      pure (.literal value)
    | "var" =>
      let name ← required ms "name" asString
      pure (.var name)
    | "lambda" =>
      let params ← required ms "params" (asList (Pattern.ofPart nesting))
      let body ← required ms "body" (ofPart fuel)
      pure (.lambda params body)
    | "apply" =>
      let func ← required ms "func" (ofPart fuel)
      let args ← required ms "args" (asList (ofPart fuel))
      pure (.apply func args)
    | "let" =>
      let defs ← required ms "defs" (asList def?)
      let body ← required ms "body" (ofPart fuel)
      pure (.letIn defs body)
    | "case" =>
      let scrutinee ← required ms "scrutinee" (ofPart fuel)
      let branches ← required ms "branches" (asList branch?)
      pure (.case scrutinee branches)
    | "if" =>
      let cond ← required ms "cond" (ofPart fuel)
      let onTrue ← required ms "then_branch" (ofPart fuel)
      let onFalse ← required ms "else_branch" (ofPart fuel)
      pure (.ite cond onTrue onFalse)
    | "list" =>
      let items ← required ms "items" (asList (ofPart fuel))
      pure (.list items)
    | "record" =>
      let fields ← required ms "fields" (asList field?)
      pure (.record fields)
    | "access" =>
      let record ← required ms "record" (ofPart fuel)
      let field ← required ms "field" asString
      pure (.access record field)
    | _ =>
      let record ← required ms "record" (ofPart fuel)
      let fields ← required ms "fields" (asList field?)
      pure (.update record fields)

end

def ofJson (room : Nat) (j : Json) : Option Expr :=
  if fitsOutside ["id"] room j then ofPart (2 * nesting) j else none

end Expr

def Def.ofJson : Nat → Json → Option Def
  | 0, _ => none
  | room + 1, j =>
    Def.ofMembers (listWithin Pattern.ofJson room) (Expr.ofJson room) (Span.ofJson room) j

def Branch.ofJson : Nat → Json → Option Branch
  | 0, _ => none
  | room + 1, j => Branch.ofMembers (Pattern.ofJson room) (Expr.ofJson room) (Span.ofJson room) j

def Field.ofJson : Nat → Json → Option Field
  | 0, _ => none
  | room + 1, j => Field.ofMembers (Expr.ofJson room) j

def Group.ofJson : Nat → Json → Option Group
  | 0, _ => none
  | room + 1, j => do
    let ms ← asStruct ["defs"] j
    let defs ← required ms "defs" (listWithin Def.ofJson room)
    pure ⟨defs⟩

def Program.ofJson : Nat → Json → Option Program
  | 0, _ => none
  | room + 1, j => do
    let ms ← asStruct ["groups"] j
    let groups ← required ms "groups" (listWithin Group.ofJson room)
    pure ⟨groups⟩

end TypeSolver
