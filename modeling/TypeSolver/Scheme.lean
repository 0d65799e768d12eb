import TypeSolver.Constraint

/-!
# TypeSolver.Scheme

The types of a group of names, quantified over some of their variables. All names of a group
share one scheme.
-/

namespace TypeSolver

def insertVar (v : Var) : List Var → List Var
  | [] => [v]
  | w :: ws => if v < w then v :: w :: ws else if v = w then w :: ws else w :: insertVar v ws

def sortVars (vs : List Var) : List Var := vs.foldl (fun acc v => insertVar v acc) []

/-- `quantifiers` lists, in increasing order, the variables of which each use has copies of its
own; `candidates` are the variables made for the group and `qualifier` is what was demanded of
them. -/
structure Scheme where
  quantifiers : List Var
  candidates : List Var
  qualifier : Constraint
  header : Header

namespace Scheme

def closed (name : String) (t : Ty) (vars : List Var) : Scheme where
  quantifiers := sortVars vars
  candidates := vars
  qualifier := .trivial
  header := [(name, t)]

def typeOf? (s : Scheme) (name : String) : Option Ty := Assoc.get? s.header name

def isMonomorphic (s : Scheme) : Bool := s.quantifiers.isEmpty

/-- The generalization boundary that a scheme stands for, around `body`. -/
def around (s : Scheme) (body : Constraint) : Constraint :=
  .letIn s.candidates s.header s.qualifier body

end Scheme

abbrev Context := List (String × Scheme)

end TypeSolver
