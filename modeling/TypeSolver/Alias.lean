import TypeSolver.Signature

/-!
# TypeSolver.Alias

Type aliases. An alias names a signature with parameters, and a table of aliases is usable when
no alias reaches itself through the constructors its body mentions.
-/

namespace TypeSolver

structure Alias where
  params : List String := []
  body : Signature

abbrev AliasTable := List (String × Alias)

def firstUnbound (params names : List String) : Option String :=
  names.find? fun name => name ∉ params

namespace AliasTable

/-- Add an alias, or replace the one of that name. Its body may mention its parameters only. -/
def add (table : AliasTable) (name : String) (entry : Alias) : Except SignatureError AliasTable :=
  match firstUnbound entry.params entry.body.freeVars with
  | some unknown => .error (.unknownVar unknown)
  | none => .ok (Assoc.insert table name entry)

/-- The constructors that the body of `name` mentions; none when `name` is no alias. -/
def mentions (table : AliasTable) (name : String) : List String :=
  match Assoc.get? table name with
  | some entry => entry.body.constructors
  | none => []

/-- Names reached from the names `pending` through bodies, and not yet in `seen`. Only aliases
lead on, each once, so the number of aliases bounds the number of rounds. -/
def explore (table : AliasTable) : Nat → List String → List String → List String
  | 0, _, seen => seen
  | fuel + 1, pending, seen =>
    match (pending.flatMap (mentions table)).eraseDups.filter fun name => name ∉ seen with
    | [] => seen
    | found => explore table fuel found (seen ++ found)

/-- All names that `name` leads to, by one step or more. -/
def reached (table : AliasTable) (name : String) : List String :=
  explore table (table.length + 1) [name] []

/-- The first alias, in order of name, that leads to itself. -/
def findCycle (table : AliasTable) : Option String :=
  (Assoc.keys table).find? fun name => name ∈ reached table name

/-- One step of expansion. It is `none` when `name` is no alias or has another number of
parameters, and an error when the arguments do not fit the body. Of parameters with one name the
last decides. -/
def expand (table : AliasTable) (name : String) (args : List Ty) :
    Option (Except SignatureError Ty) :=
  match Assoc.get? table name with
  | none => none
  | some entry =>
    if entry.params.length = args.length then
      some (entry.body.toTy (entry.params.zip args).reverse)
    else none

/-- A type whose head is settled, or one whose alias head cannot be expanded. -/
inductive Head where
  | settled (t : Ty)
  | stuck (t : Ty)

/-- Expand the head of a type until it is no alias; `none` means out of fuel. -/
def head (table : AliasTable) : Nat → Ty → Option Head
  | 0, _ => none
  | fuel + 1, .app name args =>
    match table.expand name args with
    | none => some (.settled (.app name args))
    | some (.ok t) => table.head fuel t
    | some (.error _) => some (.stuck (.app name args))
  | _ + 1, t => some (.settled t)

end AliasTable
end TypeSolver
