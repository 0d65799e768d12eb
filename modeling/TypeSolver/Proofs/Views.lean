import TypeSolver.Infer

/-!
# TypeSolver.Proofs.Views

What a store says about types, read without a change to it. The program reads while it shortens
links; here each of its readings is given as a function of the store alone, in terms of `root` and
`content`. `TypeSolver.Proofs.Lookups` shows that the program reads the same.
-/

namespace TypeSolver

namespace Store

def visit (s : Store) : Nat → List Var → Var → List Var
  | 0, seen, _ => seen
  | fuel + 1, seen, v =>
    let r := s.root v
    if r ∈ seen then seen
    else
      match s.content r with
      | .bound t => t.vars.foldl (visit s fuel) (r :: seen)
      | _ => r :: seen

/-- The roots that the variables of `t` lead to, on top of those in `seen`. -/
def reachFrom (s : Store) (seen : List Var) (t : Ty) : List Var :=
  t.vars.foldl (s.visit s.size) seen

def reach (s : Store) (t : Ty) : List Var := s.reachFrom [] t

/-- The unbound roots inside the boundary of rank `outer` that the types of `header` lead to. -/
def generalizable (s : Store) (header : Header) (outer : Rank) : List Var :=
  sortVars (((Assoc.values header).foldl s.reachFrom []).filter (s.isInside outer))

/-- Read a type off the store, naming variables from left to right. -/
def readType (s : Store) : Nat → Ty → StateT Naming Option NamedType
  | 0, _ => failure
  | fuel + 1, .var v =>
    match s.content v with
    | .bound t => s.readType fuel t
    | .poisoned => pure .error
    | .unbound _ hint => do
      let name ← modifyGet (Naming.nameOf (s.root v) hint)
      pure (.var name)
  | fuel + 1, .func arg ret => do
    let a ← s.readType fuel arg
    let r ← s.readType fuel ret
    pure (.func a r)
  | fuel + 1, .app name args =>
    match s.aliases.expand name args with
    | some (.ok t) => s.readType fuel t
    | _ => do
      let ts ← args.mapM (s.readType fuel)
      pure (.app name ts)
  | fuel + 1, .record fields ext => do
    let fs ← fields.mapM fun (name, t) => do
      let u ← s.readType fuel t
      pure (name, u)
    match ext with
    | none => pure (.record fs none)
    | some v => do
      let rest ← s.readType fuel (.var v)
      pure (closeRecord fs rest)

def snapshot (s : Store) (fuel : Nat) (t : Ty) : Option NamedType :=
  ((s.readType fuel t).run {}).map Prod.fst

/-- The type of a binding, with names for its quantified variables. -/
def polytype (s : Store) (fuel : Nat) (quantifiers : List Var) (t : Ty) : Option Polytype :=
  ((s.readType fuel t).run { quantified := quantifiers.map s.root }).map
    fun (ty, n) => ⟨n.order, ty⟩

/-- All fields of a record, gathered through bound extensions. -/
def row (s : Store) : Nat → List (String × Ty) → Option Var → Option Row
  | 0, _, _ => none
  | _ + 1, fields, none => some ⟨fields, .closed⟩
  | fuel + 1, fields, some v =>
    match s.content v with
    | .unbound _ _ => some ⟨fields, .opened (s.root v)⟩
    | .poisoned => some ⟨fields, .spoiled⟩
    | .bound t =>
      match s.aliases.head fuel t with
      | none => none
      | some (.settled (.record more rest)) => s.row fuel (Assoc.union fields more) rest
      | some (.settled _) => some ⟨fields, .spoiled⟩
      | some (.stuck u) => (s.snapshot fuel u).map fun _ => ⟨fields, .spoiled⟩

end Store

def readBindings (s : Store) (fuel : Nat) :
    List (String × Scheme) → Option (List (String × Polytype))
  | [] => some []
  | (name, scheme) :: rest =>
    match readBindings s fuel rest with
    | none => none
    | some bindings =>
      match scheme.typeOf? name with
      | none => some bindings
      | some t => (s.polytype fuel scheme.quantifiers t).map fun p => (name, p) :: bindings

def readNodeTypes (s : Store) (fuel : Nat) (nodeTypes : List (UInt32 × Ty)) :
    Option (List (UInt32 × NamedType)) :=
  let read : StateT Naming Option (List (UInt32 × NamedType)) := nodeTypes.mapM fun (id, t) => do
    let u ← s.readType fuel t
    pure (id, u)
  (read.run {}).map Prod.fst

end TypeSolver
