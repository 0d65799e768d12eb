import TypeSolver.Environment
import TypeSolver.Fragment
import TypeSolver.Program

/-!
# TypeSolver.Generate

The constraint of a program. One walk over the program makes the variables and says what is
demanded of them; nothing is solved yet. The rank in the state is the rank that the solver has
when it reaches the constraint being built.
-/

namespace TypeSolver

structure Generator where
  store : Store
  rank : Rank := 0
  nodeTypes : List (UInt32 × Ty) := []

/-- A step of the walk. A fatal error keeps the state. -/
abbrev Generate := EStateM FatalError Generator

namespace Generate

variable {α : Type}

def fresh : Generate Var := fun g =>
  match g.store.fresh g.rank none with
  | (v, s) => .ok v { g with store := s }

def freshType : Generate Ty := do
  let v ← fresh
  pure (.var v)

def freshVars : Nat → Generate (List Var)
  | 0 => pure []
  | n + 1 => do
    let v ← fresh
    let vs ← freshVars n
    pure (v :: vs)

def nested (m : Generate α) : Generate α := fun g =>
  match m { g with rank := g.rank + 1 } with
  | .ok a g' => .ok a { g' with rank := g'.rank - 1 }
  | .error e g' => .error e { g' with rank := g'.rank - 1 }

/-- Note the type of an expression; of two with one number the later counts. -/
def note (id : UInt32) (t : Ty) : Generate Unit :=
  modify fun g => { g with nodeTypes := Assoc.insert g.nodeTypes id t }

def literalType : Literal → Ty
  | .int _ => .int
  | .float _ => .float
  | .char _ => .char
  | .string _ => .string
  | .bool _ => .bool

def constructor (env : Environment) (name : String) (span : Span) : Generate (List Ty × Ty) :=
  fun g =>
    match env.instantiateConstructor name g.rank span g.store with
    | (.ok r, s) => .ok r { g with store := s }
    | (.error e, s) => .error e { g with store := s }

def fieldBindings : List String → Generate (List Fragment)
  | [] => pure []
  | name :: names => do
    let v ← fresh
    let fs ← fieldBindings names
    pure (.binding name v .trivial :: fs)

mutual

/-- What a pattern binds when the matched value has type `expected`. A constructor is compared
with its patterns as a function, so that a wrong number of them is a mismatch. -/
def pattern (env : Environment) : Pattern → Ty → Generate Fragment
  | ⟨span, form⟩, expected => patternForm env span form expected

def patternForm (env : Environment) (span : Span) : PatternForm → Ty → Generate Fragment
  | .wildcard, _ => pure .empty
  | .var name, expected => do
    let v ← fresh
    pure (.binding name v (.equal expected (.var v) span))
  | .literal value, expected =>
    pure { constraint := .equal expected (literalType value) span }
  | .ctor name args, expected => do
    let (params, result) ← constructor env name span
    let vars ← freshVars args.length
    let types := vars.map Ty.var
    let head : Fragment :=
      { vars := vars
        constraint := .all
          [.equal expected result span,
           .equal (.curried types result) (.curried params result) span] }
    let inner ← patterns env args types
    pure (head.join (.joinAll inner))
  | .record fields, expected => do
    let ext ← fresh
    let bindings ← fieldBindings fields
    let bindings := Fragment.joinAll bindings
    let head : Fragment :=
      { vars := [ext], constraint := .equal expected (.record bindings.env (some ext)) span }
    pure (head.join bindings)
  | .named inner name, expected => do
    let v ← fresh
    let outer := Fragment.binding name v (.equal expected (.var v) span)
    let f ← pattern env inner expected
    pure (outer.join f)

def patterns (env : Environment) : List Pattern → List Ty → Generate (List Fragment)
  | p :: ps, t :: ts => do
    let f ← pattern env p t
    let fs ← patterns env ps ts
    pure (f :: fs)
  | _, _ => pure []

end

/-- A function of the given parameters, whose body is demanded by `body`. The names that the
parameters bind are in scope in the body, inside a boundary of their own. -/
def function (env : Environment) (params : List Pattern) (span : Span) (expected : Ty)
    (body : Ty → Generate Constraint) : Generate Constraint :=
  if params.isEmpty then body expected
  else do
    let vars ← freshVars params.length
    let args := vars.map Ty.var
    let ret ← freshType
    let fs ← nested (patterns env params args)
    let c ← body ret
    pure (.all [(Fragment.joinAll fs).toScheme.around c, .equal expected (.curried args ret) span])

/-- The scheme of a group of definitions. Inside the group its names are bound too, each with one
type for all its uses. -/
def groupScheme (fs : List Fragment) : Scheme :=
  let f := Fragment.joinAll fs
  { f with constraint := .recursive f.env f.constraint : Fragment }.toScheme

/-- One variable for each different field name, in order of first appearance. -/
def fieldTypes : List Field → List (String × Ty) → Generate (List (String × Ty))
  | [], types => pure types
  | ⟨name, _⟩ :: fields, types =>
    if Assoc.contains types name then fieldTypes fields types
    else do
      let t ← freshType
      fieldTypes fields (Assoc.insert types name t)

mutual

/-- What is demanded for an expression to have type `expected`. -/
def expr (env : Environment) : Expr → Ty → Generate Constraint
  | ⟨id, span, form⟩, expected => do
    note id expected
    exprForm env span form expected

def exprForm (env : Environment) (span : Span) : ExprForm → Ty → Generate Constraint
  | .literal value, expected => pure (.equal expected (literalType value) span)
  | .var name, expected => pure (.instanceOf name expected span)
  | .lambda params body, expected => function env params span expected (expr env body)
  | .apply func args, expected => do
    let vars ← freshVars args.length
    let types := vars.map Ty.var
    let c ← expr env func (.curried types expected)
    let cs ← exprs env args types
    pure (.all (c :: cs))
  | .letIn defs body, expected => do
    let fs ← nested (definitions env defs)
    let c ← expr env body expected
    pure ((groupScheme fs).around c)
  | .case scrutinee bs, expected => do
    let subject ← freshType
    let c ← expr env scrutinee subject
    let cs ← branches env subject expected bs
    pure (.all (c :: cs))
  | .ite cond onTrue onFalse, expected => do
    let c ← expr env cond .bool
    let d ← expr env onTrue expected
    let e ← expr env onFalse expected
    pure (.all [c, d, e])
  | .list items, expected => do
    let elem ← freshType
    let cs ← exprs env items (items.map fun _ => elem)
    pure (.all (cs ++ [.equal expected (.list elem) span]))
  | .record fs, expected => do
    let (types, cs) ← fields env fs
    pure (.all (cs ++ [.equal expected (.record (Assoc.ofList types) none) span]))
  | .access record field, expected => do
    let ext ← fresh
    expr env record (.record [(field, expected)] (some ext))
  | .update record fs, expected => do
    let ext ← fresh
    let types ← fieldTypes fs []
    let row := Ty.record types (some ext)
    let c ← expr env record row
    let cs ← fieldValues env fs (fs.filterMap fun f => Assoc.get? types f.name)
    pure (.all (c :: cs ++ [.equal expected row span]))

def exprs (env : Environment) : List Expr → List Ty → Generate (List Constraint)
  | e :: es, t :: ts => do
    let c ← expr env e t
    let cs ← exprs env es ts
    pure (c :: cs)
  | _, _ => pure []

def fieldValues (env : Environment) : List Field → List Ty → Generate (List Constraint)
  | ⟨_, value⟩ :: fs, t :: ts => do
    let c ← expr env value t
    let cs ← fieldValues env fs ts
    pure (c :: cs)
  | _, _ => pure []

def fields (env : Environment) : List Field → Generate (List (String × Ty) × List Constraint)
  | [] => pure ([], [])
  | ⟨name, value⟩ :: fs => do
    let t ← freshType
    let c ← expr env value t
    let (types, cs) ← fields env fs
    pure ((name, t) :: types, c :: cs)

/-- Branches in order. Pattern and body of a branch belong to the checkpoint of the branch. -/
def branches (env : Environment) (subject expected : Ty) :
    List Branch → Generate (List Constraint)
  | [] => pure []
  | ⟨p, body, span⟩ :: bs => do
    let f ← nested (pattern env p subject)
    let c ← expr env body expected
    let f := { f with constraint := (Constraint.checkpoint span).and f.constraint }
    let cs ← branches env subject expected bs
    pure (f.toScheme.around ((Constraint.checkpoint span).and c) :: cs)

def definitions (env : Environment) : List Def → Generate (List Fragment)
  | [] => pure []
  | ⟨name, params, body, span⟩ :: ds => do
    let v ← fresh
    let c ← function env params span (.var v) (expr env body)
    let fs ← definitions env ds
    pure (.binding name v ((Constraint.checkpoint span).and c) :: fs)

end

def groups (env : Environment) : List Group → Generate (List Scheme)
  | [] => pure []
  | g :: gs => do
    let fs ← nested (definitions env g.defs)
    let schemes ← groups env gs
    pure (groupScheme fs :: schemes)

/-- The constraint of a program: one boundary for each group, later groups inside earlier ones. -/
def program (env : Environment) (p : Program) : Generate Constraint := do
  let schemes ← groups env p.groups
  pure (schemes.foldr Scheme.around .trivial)

end Generate
end TypeSolver
