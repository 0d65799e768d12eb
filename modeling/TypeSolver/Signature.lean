import TypeSolver.Assoc
import TypeSolver.Ty

/-!
# TypeSolver.Signature

Types as signatures and alias bodies write them, with named variables instead of store
variables. Reading a signature as a type replaces each name by the type chosen for it.
-/

namespace TypeSolver

inductive Signature where
  | var (name : String)
  | con (name : String) (args : List Signature)
  | func (arg ret : Signature)
  | record (fields : List (String × Signature)) (ext : Option String)

inductive SignatureError where
  | unknownVar (name : String)
  | extensionNotRecord (name : String)
  | recursiveAlias (name : String)
deriving DecidableEq

def SignatureError.message : SignatureError → String
  | .unknownVar name => s!"type variable '{name}' is not in scope"
  | .extensionNotRecord name => s!"record extension '{name}' is not a record"
  | .recursiveAlias name => s!"alias '{name}' expands to itself"

namespace Signature

def curried (args : List Signature) (ret : Signature) : Signature := args.foldr .func ret

def noteName (names : List String) (name : String) : List String :=
  if name ∈ names then names else names ++ [name]

mutual

/-- Extend `names` by the variables of a signature that it lacks, in order of appearance. -/
def noteVars (names : List String) : Signature → List String
  | .var name => noteName names name
  | .con _ args => noteVarsList names args
  | .func arg ret => noteVars (noteVars names arg) ret
  | .record fields ext => ext.toList.foldl noteName (noteVarsFields names fields)

def noteVarsList (names : List String) : List Signature → List String
  | [] => names
  | t :: ts => noteVarsList (noteVars names t) ts

def noteVarsFields (names : List String) : List (String × Signature) → List String
  | [] => names
  | (_, t) :: fs => noteVarsFields (noteVars names t) fs

end

/-- The variables of a signature in order of first appearance. A record's fields come before
its extension. -/
def freeVars (t : Signature) : List String := noteVars [] t

mutual

def constructors : Signature → List String
  | .var _ => []
  | .con name args => name :: constructorsList args
  | .func arg ret => arg.constructors ++ ret.constructors
  | .record fields _ => constructorsFields fields

def constructorsList : List Signature → List String
  | [] => []
  | t :: ts => t.constructors ++ constructorsList ts

def constructorsFields : List (String × Signature) → List String
  | [] => []
  | (_, t) :: fs => t.constructors ++ constructorsFields fs

end

/-- Put `ext` behind the known fields of a record: a variable stays open, a record is merged
in, where the fields already known win, and nothing else extends a record. -/
def extend (fields : List (String × Ty)) (name : String) : Option Ty → Except SignatureError Ty
  | none => .error (.unknownVar name)
  | some (.var v) => .ok (.record fields (some v))
  | some (.record more rest) => .ok (.record (Assoc.union fields more) rest)
  | some _ => .error (.extensionNotRecord name)

mutual

/-- The type that a signature describes when `σ` gives the types of its variables. The first
fault from left to right is reported. -/
def toTy (σ : List (String × Ty)) : Signature → Except SignatureError Ty
  | .var name =>
    match Assoc.get? σ name with
    | some t => .ok t
    | none => .error (.unknownVar name)
  | .con name args =>
    match toTyList σ args with
    | .error e => .error e
    | .ok ts => .ok (.app name ts)
  | .func arg ret =>
    match arg.toTy σ with
    | .error e => .error e
    | .ok a =>
      match ret.toTy σ with
      | .error e => .error e
      | .ok r => .ok (.func a r)
  | .record fields ext =>
    match toTyFields σ fields with
    | .error e => .error e
    | .ok fs =>
      match ext with
      | none => .ok (.record fs none)
      | some name => extend fs name (Assoc.get? σ name)

def toTyList (σ : List (String × Ty)) : List Signature → Except SignatureError (List Ty)
  | [] => .ok []
  | t :: ts =>
    match t.toTy σ with
    | .error e => .error e
    | .ok u =>
      match toTyList σ ts with
      | .error e => .error e
      | .ok us => .ok (u :: us)

def toTyFields (σ : List (String × Ty)) :
    List (String × Signature) → Except SignatureError (List (String × Ty))
  | [] => .ok []
  | (name, t) :: fs =>
    match t.toTy σ with
    | .error e => .error e
    | .ok u =>
      match toTyFields σ fs with
      | .error e => .error e
      | .ok us => .ok ((name, u) :: us)

end

end Signature
end TypeSolver
