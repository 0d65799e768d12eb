import TypeSolver.Config
import TypeSolver.Generate
import TypeSolver.Solver

/-!
# TypeSolver.Infer

Inference for a whole program: read the environment, generate the constraint, solve it, and read
the types off the store.
-/

namespace TypeSolver

/-- Fuel that no program can use up: it bounds how deep calls nest, not how many there are. -/
def ampleFuel : Nat := 0x1000000000000

structure Module where
  environment : Environment := {}
  program : Program

/-- The types of the names that a program binds at the outside, and of all its expressions. -/
structure TypedProgram where
  bindings : List (String × Polytype)
  nodeTypes : List (UInt32 × NamedType)

inductive InferError where
  | types (errors : List TypeError) (suppressed : Nat)
  | fatal (e : FatalError)

def InferError.message : InferError → String
  | .types errors suppressed => toString (errors.length + suppressed) ++ " type error(s)"
  | .fatal e => e.message

structure Prepared where
  context : Context
  constraint : Constraint
  nodeTypes : List (UInt32 × Ty)
  initialSize : Nat
  store : Store

namespace Prepared

def ofProgram (program : Program) (env : Environment) : Except FatalError Prepared :=
  match env.aliasTable with
  | .error e => .error e
  | .ok aliases =>
    match env.initialContext { aliases := aliases } with
    | (.error e, _) => .error e
    | (.ok ctx, s) =>
      match Generate.program env program { store := s } with
      | .error e _ => .error e
      | .ok c g => .ok ⟨ctx, c, g.nodeTypes, s.size, g.store⟩

def solve (p : Prepared) (fuel : Nat) (config : Config) : Run Unit :=
  Solver.solve fuel p.context p.constraint
    (.ofStore { p.store with compress := config.pathCompression } config.maxErrors)

end Prepared

/-- The types of the outermost bindings, each named on its own. -/
def resolveBindings (fuel : Nat) :
    List (String × Scheme) → Store → Option (List (String × Polytype) × Store)
  | [], s => some ([], s)
  | (name, scheme) :: rest, s =>
    match scheme.typeOf? name with
    | none => resolveBindings fuel rest s
    | some t =>
      match s.takePolytype fuel scheme.quantifiers t with
      | none => none
      | some (p, s) =>
        (resolveBindings fuel rest s).map fun (bindings, s) => ((name, p) :: bindings, s)

/-- The types of all expressions, named together. -/
def resolveNodeTypes (fuel : Nat) (nodeTypes : List (UInt32 × Ty)) (s : Store) :
    Option (List (UInt32 × NamedType)) :=
  let read : StateT Resolving Option (List (UInt32 × NamedType)) :=
    nodeTypes.mapM fun (id, t) => do
      let u ← Resolving.resolve fuel t
      pure (id, u)
  (read.run { store := s }).map Prod.fst

/-- Infer the types of a program. All type errors are reported together; `none` means out of
fuel. -/
def inferProgram (fuel : Nat) (program : Program) (env : Environment) (config : Config) :
    Option (Except InferError TypedProgram) :=
  match Prepared.ofProgram program env with
  | .error e => some (.error (.fatal e))
  | .ok p =>
    match p.solve fuel config with
    | .outOfFuel => none
    | .fatal e _ => some (.error (.fatal e))
    | .done _ st =>
      if st.errors.isEmpty then
        match resolveBindings fuel st.topLevel st.store with
        | none => none
        | some (bindings, s) =>
          (resolveNodeTypes fuel p.nodeTypes s).map fun nodeTypes => .ok ⟨bindings, nodeTypes⟩
      else some (.error (.types st.errors st.suppressed))

def inferModule (fuel : Nat) (m : Module) (config : Config) :
    Option (Except InferError TypedProgram) :=
  inferProgram fuel m.program m.environment config

end TypeSolver
