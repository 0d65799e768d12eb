/-!
# TypeSolver.NamedType

Types as they are shown: nothing refers to a store any more, variables have names, and a place
spoiled by an error that was reported is marked.
-/

namespace TypeSolver

inductive NamedType where
  | var (name : String)
  | func (arg ret : NamedType)
  | app (name : String) (args : List NamedType)
  | record (fields : List (String × NamedType)) (ext : Option String)
  | error

namespace NamedType

def con (name : String) : NamedType := .app name []

mutual

def isGround : NamedType → Bool
  | .var _ => false
  | .func arg ret => arg.isGround && ret.isGround
  | .app _ args => allGround args
  | .record fields ext => ext.isNone && fieldsGround fields
  | .error => false

def allGround : List NamedType → Bool
  | [] => true
  | t :: ts => t.isGround && allGround ts

def fieldsGround : List (String × NamedType) → Bool
  | [] => true
  | (_, t) :: fs => t.isGround && fieldsGround fs

end

def isFunc : NamedType → Bool
  | .func _ _ => true
  | _ => false

/-- Whether a type needs parentheses as an argument: a function does, and so does a constructor
with arguments of its own. -/
def isCompound : NamedType → Bool
  | .func _ _ => true
  | .app _ args => !args.isEmpty
  | _ => false

def parenthesize (needed : Bool) (text : String) : String :=
  if needed then "(" ++ text ++ ")" else text

mutual

/-- The text of a type. Arrows group to the right, arguments follow their constructor, and a
record shows its extension before its fields. -/
def text : NamedType → String
  | .var name => name
  | .func arg ret => parenthesize arg.isFunc arg.text ++ " -> " ++ ret.text
  | .app name args => name ++ argsText args
  | .record [] none => "\x7b\x7d"
  | .record [] (some ext) => "\x7b " ++ ext ++ " \x7d"
  | .record ((name, t) :: fs) none =>
    "\x7b " ++ name ++ " : " ++ t.text ++ fieldsText fs ++ " \x7d"
  | .record ((name, t) :: fs) (some ext) =>
    "\x7b " ++ ext ++ " | " ++ name ++ " : " ++ t.text ++ fieldsText fs ++ " \x7d"
  | .error => "?"

def argsText : List NamedType → String
  | [] => ""
  | t :: ts => " " ++ parenthesize t.isCompound t.text ++ argsText ts

def fieldsText : List (String × NamedType) → String
  | [] => ""
  | (name, t) :: fs => ", " ++ name ++ " : " ++ t.text ++ fieldsText fs

end

end NamedType

/-- The type of a generalized binding, with its quantified variables in order of first
appearance. -/
structure Polytype where
  vars : List String
  ty : NamedType

def Polytype.text (p : Polytype) : String := p.ty.text

end TypeSolver
