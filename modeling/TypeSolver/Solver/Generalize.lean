import TypeSolver.Scheme
import TypeSolver.Store.Search

/-!
# TypeSolver.Solver.Generalize

Which variables a group may be quantified over, and the copies that a use of it gets.
-/

namespace TypeSolver
namespace Store

/-- Whether the root `r` is unbound and was made inside the boundary of rank `outer`. -/
def isInside (s : Store) (outer : Rank) (r : Var) : Bool :=
  match s.rank? r with
  | some rank => decide (outer < rank)
  | none => false

/-- The unbound roots inside the boundary of rank `outer` that the types of `header` lead to. -/
def generalize (s : Store) (header : Header) (outer : Rank) : List Var × Store :=
  let q := (Assoc.values header).foldl (Search.through none) { store := s }
  (sortVars (q.seen.filter (q.store.isInside outer)), q.store)

end Store

/-- A store, and the copies made in it so far, by the root that they copy. -/
structure Copying where
  store : Store
  copies : List (Var × Var) := []

namespace Copying

def find (v : Var) (c : Copying) : Var × Copying :=
  match c.store.find v with
  | (r, s) => (r, { c with store := s })

def make (r : Var) (rank : Rank) (hint : Option String) (c : Copying) : Ty × Copying :=
  match c.store.fresh rank hint with
  | (v, s) => (.var v, ⟨s, (r, v) :: c.copies⟩)

/-- Put what became of an extension behind the copied fields of a record. An extension that is
no row any more stays as it was. -/
def extend (fields : List (String × Ty)) (ext : Var) : Ty → Ty
  | .var v => .record fields (some v)
  | .record more rest => .record (Assoc.union fields more) rest
  | _ => .record fields (some ext)

/-- A copy of a type in which bound variables are replaced by what they stand for, and each
variable of `quantifiers` by a new one of the given rank, the same one at each place. All other
variables are shared with the type. `none` means out of fuel. -/
def copy (quantifiers : List Var) (rank : Rank) : Nat → Ty → StateT Copying Option Ty
  | 0, _ => failure
  | fuel + 1, .var v => do
    let r ← modifyGet (find v)
    let c ← get
    match Assoc.get? c.copies r with
    | some w => pure (.var w)
    | none =>
      match c.store.content r with
      | .bound t => copy quantifiers rank fuel t
      | .unbound _ hint =>
        if r ∈ quantifiers then modifyGet (make r rank hint) else pure (.var v)
      | .poisoned => pure (.var v)
  | fuel + 1, .func arg ret => do
    let a ← copy quantifiers rank fuel arg
    let r ← copy quantifiers rank fuel ret
    pure (.func a r)
  | fuel + 1, .app name args => do
    let ts ← args.mapM (copy quantifiers rank fuel)
    pure (.app name ts)
  | fuel + 1, .record fields ext => do
    let fs ← fields.mapM fun (name, t) => do
      let u ← copy quantifiers rank fuel t
      pure (name, u)
    match ext with
    | none => pure (.record fs none)
    | some v => do
      let rest ← copy quantifiers rank fuel (.var v)
      pure (extend fs v rest)

end Copying

/-- A copy of `t` at the given rank, new in all quantifiers; nothing is copied where there are
none. -/
def Store.instantiate (s : Store) (fuel : Nat) (quantifiers : List Var) (rank : Rank) (t : Ty) :
    Option (Ty × Store) :=
  if quantifiers.isEmpty then some (t, s)
  else
    match s.findAll quantifiers with
    | (roots, s) =>
      ((Copying.copy roots rank fuel t).run { store := s }).map fun (u, c) => (u, c.store)

end TypeSolver
