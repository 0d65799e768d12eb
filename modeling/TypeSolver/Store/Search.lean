import TypeSolver.Store

/-!
# TypeSolver.Store.Search

The search for the classes that a type leads to through links and bindings. The occurs check, the
lowering of ranks and generalization all make it.
-/

namespace TypeSolver

/-- How far a search has come: the store, whose links get shorter on the way, and the roots seen
so far. -/
structure Search where
  store : Store
  seen : List Var := []

namespace Search

def isOver (q : Search) : Option Var → Bool
  | none => false
  | some target => decide (target ∈ q.seen)

/-- Look up `v` and, if its root is new, all that is behind it. A root is opened once, so the size
of the store bounds how deep the search can go, also when bindings run in a circle. -/
def visit (target : Option Var) : Nat → Search → Var → Search
  | 0, q, _ => q
  | fuel + 1, q, v =>
    if q.isOver target then q
    else
      match q.store.find v with
      | (r, s) =>
        if r ∈ q.seen then ⟨s, q.seen⟩
        else
          match s.content r with
          | .bound t => t.vars.foldl (visit target fuel) ⟨s, r :: q.seen⟩
          | _ => ⟨s, r :: q.seen⟩

def through (target : Option Var) (q : Search) (t : Ty) : Search :=
  t.vars.foldl (visit target q.store.size) q

end Search

namespace Store

def occurs (s : Store) (r : Var) (t : Ty) : Bool × Store :=
  let q := Search.through (some r) { store := s } t
  (q.isOver (some r), q.store)

/-- Lower the rank of the class of `v` to `rank` if it is unbound and above. -/
def lowerRank (rank : Rank) (s : Store) (v : Var) : Store :=
  match s.content v with
  | .unbound current hint => if rank < current then s.put (s.root v) (.unbound rank hint) else s
  | _ => s

/-- Lower the ranks of all classes of `vs` to at most `rank`. -/
def lowerRanks (s : Store) (vs : List Var) (rank : Rank) : Store :=
  vs.foldl (lowerRank rank) s

def adjustRanks (s : Store) (t : Ty) (rank : Rank) : Store :=
  let q := Search.through none { store := s } t
  q.store.lowerRanks q.seen rank

end Store
end TypeSolver
