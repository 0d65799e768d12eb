import TypeSolver.Assoc
import TypeSolver.Span
import TypeSolver.Ty

/-!
# TypeSolver.Constraint

What a program demands of the types of its parts. Conjunction leaves out what demands nothing
and keeps conjunctions flat, so it is associative.
-/

namespace TypeSolver

/-- Names bound together, in order of name, with their types before generalization. -/
abbrev Header := List (String × Ty)

/-- A `letIn` is a generalization boundary: `defs` is solved inside it and `body` with the names
of `header` in scope. An `instanceOf` demands that `ty` is an instance of the scheme of `name`,
and a `checkpoint` marks the region to which later errors belong. -/
inductive Constraint where
  | trivial
  | checkpoint (span : Span)
  | equal (expected actual : Ty) (span : Span)
  | conj (items : List Constraint)
  | letIn (vars : List Var) (header : List (String × Ty)) (defs body : Constraint)
  | instanceOf (name : String) (ty : Ty) (span : Span)
deriving BEq

namespace Constraint

def isTrivial : Constraint → Bool
  | .trivial => true
  | _ => false

/-- Bind the names of a recursive group around its own definitions, each with one type for all
its uses there. -/
def recursive (header : Header) (defs : Constraint) : Constraint :=
  if header.isEmpty then defs else .letIn [] header .trivial defs

def and : Constraint → Constraint → Constraint
  | .trivial, c => c
  | c, .trivial => c
  | .conj cs, .conj ds => .conj (cs ++ ds)
  | .conj cs, d => .conj (cs ++ [d])
  | c, .conj ds => .conj (c :: ds)
  | c, d => .conj [c, d]

def all (cs : List Constraint) : Constraint := cs.foldl and .trivial

end Constraint
end TypeSolver
