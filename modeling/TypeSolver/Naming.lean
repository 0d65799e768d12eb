import TypeSolver.NamedType
import TypeSolver.Store

/-!
# TypeSolver.Naming

Reading a type off the store. Bindings and aliases are followed to their end and the unbound
variables get names: a quantified variable keeps the name it was written with, if that is free,
or takes the next free letter, and any other is called `t` with its position in the store.
-/

namespace TypeSolver

structure Naming where
  quantified : List Var := []
  names : List (Var × String) := []
  order : List String := []
  nextLetter : Nat := 0

namespace Naming

/-- The names `a` … `z`, `a1` … `z1`, `a2` … -/
def letter (index : Nat) : String :=
  let c := String.singleton (Char.ofNat (97 + index % 26))
  if index / 26 = 0 then c else c ++ toString (index / 26)

def isTaken (n : Naming) (name : String) : Bool := n.names.any fun (_, taken) => taken == name

/-- Index of the first free letter from `index` on. Among one more letters than there are names
one is free. -/
def freeLetter (n : Naming) : Nat → Nat → Nat
  | 0, index => index
  | fuel + 1, index => if n.isTaken (letter index) then freeLetter n fuel (index + 1) else index

def addQuantified (n : Naming) (v : Var) (name : String) : Naming :=
  { n with names := n.names ++ [(v, name)], order := n.order ++ [name] }

/-- The name of the unbound root `v`, chosen at its first appearance. -/
def nameOf (v : Var) (hint : Option String) (n : Naming) : String × Naming :=
  match Assoc.get? n.names v with
  | some name => (name, n)
  | none =>
    if v ∈ n.quantified then
      match hint.filter fun name => !n.isTaken name with
      | some name => (name, n.addQuantified v name)
      | none =>
        let index := n.freeLetter (n.names.length + 1) n.nextLetter
        let name := letter index
        (name, { n.addQuantified v name with nextLetter := index + 1 })
    else
      let name := "t" ++ toString v
      (name, { n with names := n.names ++ [(v, name)] })

end Naming

namespace Store

/-- Put what an extension turned out to be behind the fields of a record. -/
def closeRecord (fields : List (String × NamedType)) : NamedType → NamedType
  | .var name => .record fields (some name)
  | .record more rest => .record (Assoc.union fields more) rest
  | _ => .record fields none

end Store

/-- How far the reading of a type has come: the store, whose links get shorter on the way, and the
names given so far. -/
structure Resolving where
  store : Store
  naming : Naming := {}

namespace Resolving

def lookUp (v : Var) (q : Resolving) : (Var × Content) × Resolving :=
  match q.store.find v with
  | (r, s) => ((r, s.content r), { q with store := s })

def nameOf (r : Var) (hint : Option String) (q : Resolving) : String × Resolving :=
  match q.naming.nameOf r hint with
  | (name, n) => (name, { q with naming := n })

/-- Read a type off the store, naming variables from left to right. An alias that cannot be
expanded stays as it is written. `none` means out of fuel. -/
def resolve : Nat → Ty → StateT Resolving Option NamedType
  | 0, _ => failure
  | fuel + 1, .var v => do
    let (r, c) ← modifyGet (lookUp v)
    match c with
    | .bound t => resolve fuel t
    | .poisoned => pure .error
    | .unbound _ hint => do
      let name ← modifyGet (nameOf r hint)
      pure (.var name)
  | fuel + 1, .func arg ret => do
    let a ← resolve fuel arg
    let r ← resolve fuel ret
    pure (.func a r)
  | fuel + 1, .app name args => do
    let q ← get
    match q.store.aliases.expand name args with
    | some (.ok t) => resolve fuel t
    | _ => do
      let ts ← args.mapM (resolve fuel)
      pure (.app name ts)
  | fuel + 1, .record fields ext => do
    let fs ← fields.mapM fun (name, t) => do
      let u ← resolve fuel t
      pure (name, u)
    match ext with
    | none => pure (.record fs none)
    | some v => do
      let rest ← resolve fuel (.var v)
      pure (Store.closeRecord fs rest)

end Resolving

namespace Store

def takeSnapshot (s : Store) (fuel : Nat) (t : Ty) : Option (NamedType × Store) :=
  ((Resolving.resolve fuel t).run { store := s }).map fun (ty, q) => (ty, q.store)

def takePolytype (s : Store) (fuel : Nat) (quantifiers : List Var) (t : Ty) :
    Option (Polytype × Store) :=
  match s.findAll quantifiers with
  | (roots, s) =>
    ((Resolving.resolve fuel t).run { store := s, naming := { quantified := roots } }).map
      fun (ty, q) => (⟨q.naming.order, ty⟩, q.store)

end Store
end TypeSolver
