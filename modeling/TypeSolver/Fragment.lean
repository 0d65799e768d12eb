import TypeSolver.Scheme

/-!
# TypeSolver.Fragment

What one pattern or definition contributes to the group it belongs to: names, variables, and
demands on them. Fragments join to larger ones; the left one decides about a name that both bind.
-/

namespace TypeSolver

structure Fragment where
  env : Header := []
  vars : List Var := []
  constraint : Constraint := .trivial

namespace Fragment

def empty : Fragment := {}

def binding (name : String) (v : Var) (c : Constraint) : Fragment where
  env := [(name, .var v)]
  vars := [v]
  constraint := c

def join (f g : Fragment) : Fragment where
  env := Assoc.union f.env g.env
  vars := f.vars ++ g.vars
  constraint := f.constraint.and g.constraint

/-- Join a list from its last fragment to its first, so that the last one decides about a name
bound several times. -/
def joinAll (fs : List Fragment) : Fragment := fs.foldl (fun acc f => f.join acc) empty

def toScheme (f : Fragment) : Scheme where
  quantifiers := []
  candidates := f.vars
  qualifier := f.constraint
  header := f.env

end Fragment
end TypeSolver
