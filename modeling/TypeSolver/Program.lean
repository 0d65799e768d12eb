import TypeSolver.Binary64
import TypeSolver.Span

/-!
# TypeSolver.Program

Programs: groups of definitions, each group in the scope of those before it. Names are resolved,
so a variable is a local name, a name of a group, an imported value or a data constructor.
-/

namespace TypeSolver

inductive Literal where
  | int (n : Int64)
  | float (x : Binary64)
  | char (c : Char)
  | string (s : String)
  | bool (b : Bool)
deriving DecidableEq

mutual

structure Pattern where
  span : Span
  form : PatternForm

/-- A record pattern binds the fields it names, and matches every record that has them. -/
inductive PatternForm where
  | wildcard
  | var (name : String)
  | literal (value : Literal)
  | ctor (name : String) (args : List Pattern)
  | record (fields : List String)
  | named (inner : Pattern) (name : String)

end

mutual

/-- An expression; the type of each is reported under its number. -/
structure Expr where
  id : UInt32
  span : Span
  form : ExprForm

/-- The definitions of a `letIn` may refer to each other. An `update` leaves the types of the
fields as they are. -/
inductive ExprForm where
  | literal (value : Literal)
  | var (name : String)
  | lambda (params : List Pattern) (body : Expr)
  | apply (func : Expr) (args : List Expr)
  | letIn (defs : List Def) (body : Expr)
  | case (scrutinee : Expr) (branches : List Branch)
  | ite (cond onTrue onFalse : Expr)
  | list (items : List Expr)
  | record (fields : List Field)
  | access (record : Expr) (field : String)
  | update (record : Expr) (fields : List Field)

structure Def where
  name : String
  params : List Pattern
  body : Expr
  span : Span

structure Branch where
  pattern : Pattern
  body : Expr
  span : Span

structure Field where
  name : String
  value : Expr

end

structure Group where
  defs : List Def

structure Program where
  groups : List Group

def Pattern.at (p : Pattern) (span : Span) : Pattern := { p with span := span }

end TypeSolver
