/-!
# TypeSolver.Ty

Type terms over unification variables. A variable is a position in the store, and a rank says
how many generalization boundaries surround it: rank 0 is outside all of them.
-/

namespace TypeSolver

abbrev Var := Nat

abbrev Rank := Nat

/-- A record lists its known fields in order of name. With `ext = none` it has no others; with
`ext = some v` the variable `v` stands for the rest of the row. -/
inductive Ty where
  | var (v : Var)
  | func (arg ret : Ty)
  | app (name : String) (args : List Ty)
  | record (fields : List (String × Ty)) (ext : Option Var)
deriving BEq

namespace Ty

def con (name : String) : Ty := .app name []

def int : Ty := con "Int"
def float : Ty := con "Float"
def char : Ty := con "Char"
def string : Ty := con "String"
def bool : Ty := con "Bool"
def list (elem : Ty) : Ty := .app "List" [elem]

def curried (args : List Ty) (ret : Ty) : Ty := args.foldr .func ret

mutual

/-- The variables written in a type, from left to right; a record's extension comes last. -/
def vars : Ty → List Var
  | .var v => [v]
  | .func arg ret => arg.vars ++ ret.vars
  | .app _ args => varsList args
  | .record fields ext => varsFields fields ++ ext.toList

def varsList : List Ty → List Var
  | [] => []
  | t :: ts => t.vars ++ varsList ts

def varsFields : List (String × Ty) → List Var
  | [] => []
  | (_, t) :: fs => t.vars ++ varsFields fs

end

end Ty
end TypeSolver
