import TypeSolver.Scheme
import TypeSolver.TypeError

/-!
# TypeSolver.Environment

What is known before a program is looked at: type aliases, data constructors, and the types of
imported values.
-/

namespace TypeSolver

structure Constructor where
  result : String
  params : List String := []
  args : List Signature := []

namespace Constructor

def resultSignature (c : Constructor) : Signature := .con c.result (c.params.map .var)

def signature (c : Constructor) : Signature := .curried c.args c.resultSignature

end Constructor

/-- The three maps are in order of name. -/
structure Environment where
  aliases : List (String × Alias) := []
  constructors : List (String × Constructor) := []
  values : List (String × Signature) := []

def Store.freshNamed (rank : Rank) : List String → Store → List Var × Store
  | [], s => ([], s)
  | name :: names, s =>
    match s.fresh rank (some name) with
    | (v, s) =>
      match freshNamed rank names s with
      | (vs, s) => (v :: vs, s)

/-- Which type each name stands for. Of equal names the last decides. -/
def assignment (names : List String) (vars : List Var) : List (String × Ty) :=
  (names.zip (vars.map Ty.var)).reverse

/-- The scheme of an imported name, quantified over all variables of its signature. -/
def closedScheme (name : String) (t : Signature) (s : Store) : Except FatalError Scheme × Store :=
  match s.freshNamed 0 t.freeVars with
  | (vars, s) =>
    match t.toTy (assignment t.freeVars vars) with
    | .error e => (.error (.invalidSignature name e), s)
    | .ok u => (.ok (.closed name u vars), s)

namespace Environment

/-- Put the aliases of a list into a table, up to the first that mentions an unknown variable. -/
def addAliases : List (String × Alias) → AliasTable → Except FatalError AliasTable
  | [], table => .ok table
  | (name, entry) :: rest, table =>
    match table.add name entry with
    | .error e => .error (.invalidSignature name e)
    | .ok table => addAliases rest table

/-- The usable table of the aliases: every body mentions its parameters only, and no alias leads
to itself. -/
def aliasTable (env : Environment) : Except FatalError AliasTable :=
  match addAliases env.aliases [] with
  | .error e => .error e
  | .ok table =>
    match table.findCycle with
    | some name => .error (.invalidSignature name (.recursiveAlias name))
    | none => .ok table

/-- Bring constructors into scope. Each may mention its own parameters only. -/
def bindConstructors : List (String × Constructor) → Context → Store → Except FatalError Context × Store
  | [], ctx, s => (.ok ctx, s)
  | (name, c) :: rest, ctx, s =>
    match firstUnbound c.params c.signature.freeVars with
    | some unknown => (.error (.invalidSignature name (.unknownVar unknown)), s)
    | none =>
      match closedScheme name c.signature s with
      | (.error e, s) => (.error e, s)
      | (.ok scheme, s) => bindConstructors rest (Assoc.insert ctx name scheme) s

def bindValues : List (String × Signature) → Context → Store → Except FatalError Context × Store
  | [], ctx, s => (.ok ctx, s)
  | (name, t) :: rest, ctx, s =>
    match closedScheme name t s with
    | (.error e, s) => (.error e, s)
    | (.ok scheme, s) => bindValues rest (Assoc.insert ctx name scheme) s

/-- The scope in which a program starts. A value hides a constructor of its name. The store comes
back with the variables made, also after an error. -/
def initialContext (env : Environment) (s : Store) : Except FatalError Context × Store :=
  match bindConstructors env.constructors [] s with
  | (.error e, s) => (.error e, s)
  | (.ok ctx, s) => bindValues env.values ctx s

/-- New types for the arguments and the result of a constructor that a pattern names. -/
def instantiateConstructor (env : Environment) (name : String) (rank : Rank) (span : Span)
    (s : Store) : Except FatalError (List Ty × Ty) × Store :=
  match Assoc.get? env.constructors name with
  | none => (.error (.unknownConstructor name span), s)
  | some c =>
    match s.freshNamed rank c.params with
    | (vars, s) =>
      let σ := assignment c.params vars
      match Signature.toTyList σ c.args with
      | .error e => (.error (.invalidSignature name e), s)
      | .ok args => (.ok (args, .app c.result (c.params.filterMap (Assoc.get? σ))), s)

end Environment
end TypeSolver
