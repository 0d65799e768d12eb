import TypeSolver.Solver.Generalize
import TypeSolver.TypeError

/-!
# TypeSolver.Solver

Discharging constraints. Type errors are recorded and solving goes on, so that one run finds all
of them; a name without a scheme ends the run. Each boundary is solved one rank deeper than what
surrounds it, and its names are generalized over the variables that stayed inside.
-/

namespace TypeSolver

structure Solver where
  store : Store
  rank : Rank := 0
  checkpoint : Option Span := none
  /-- How many errors to keep; at least one is kept. -/
  maxErrors : Option Nat := none
  errors : List TypeError := []
  suppressed : Nat := 0
  topLevel : List (String × Scheme) := []

/-- How a run ended, with the state it left. -/
inductive Run (α : Type) where
  | done (a : α) (st : Solver)
  | fatal (e : FatalError) (st : Solver)
  | outOfFuel

namespace Run

variable {α β : Type}

def andThen : Run α → (α → Solver → Run β) → Run β
  | .done a st, f => f a st
  | .fatal e st, _ => .fatal e st
  | .outOfFuel, _ => .outOfFuel

/-- Return to an earlier checkpoint at the end of a run; a fatal error leaves it where it is. -/
def restore (saved : Option Span) : Run Unit → Run Unit
  | .done _ st => .done () { st with checkpoint := saved }
  | r => r

end Run

namespace Solver

def ofStore (store : Store) (maxErrors : Option Nat) : Solver :=
  { store := store, maxErrors := maxErrors }

def isFull (st : Solver) : Bool :=
  match st.maxErrors with
  | none => false
  | some n => decide (max n 1 ≤ st.errors.length)

/-- Record a type error, or count it if no further one is kept. -/
def report (st : Solver) (m : Mismatch) (span : Span) : Solver :=
  if st.isFull then { st with suppressed := st.suppressed + 1 }
  else { st with errors := st.errors ++ [⟨m, span, st.checkpoint⟩] }

def equate (st : Solver) (fuel : Nat) (expected actual : Ty) (span : Span) : Run Unit :=
  match Store.unify fuel expected actual st.store with
  | .unified s => .done () { st with store := s }
  | .failed m s => .done () (Solver.report { st with store := s } m span)
  | .outOfFuel => .outOfFuel

/-- Make `t` equal to a new instance of the scheme of `name`. -/
def equateInstance (st : Solver) (fuel : Nat) (ctx : Context) (name : String) (t : Ty)
    (span : Span) : Run Unit :=
  match Assoc.get? ctx name with
  | none => .fatal (.unboundName name span) st
  | some scheme =>
    match scheme.typeOf? name with
    | none => .fatal (.unboundName name span) st
    | some u =>
      match st.store.instantiate fuel scheme.quantifiers st.rank u with
      | none => .outOfFuel
      | some (u, s) => Solver.equate { st with store := s } fuel t u span

def enter (st : Solver) : Solver := { st with rank := st.rank + 1 }

def bindNames (ctx : Context) (header : Header) (scheme : Scheme) : Context :=
  (Assoc.keys header).foldl (fun ctx name => Assoc.insert ctx name scheme) ctx

/-- Leave the boundary of a group whose definitions were run: go back to the rank `outer`, and
extend the context by the group's names. A definition with a type error has a scheme too. -/
def leave (ctx : Context) (outer : Rank) (vars : List Var) (header : Header)
    (defs : Constraint) : Run Unit → Run Context
  | .done _ st =>
    match st.store.generalize header outer with
    | (quantifiers, s) =>
      let scheme : Scheme := ⟨quantifiers, vars, defs, header⟩
      let topLevel := if outer = 0 then bindNames st.topLevel header scheme else st.topLevel
      .done (bindNames ctx header scheme)
        { st with store := s, rank := outer, topLevel := topLevel }
  | .fatal e st => .fatal e { st with store := (st.store.generalize header outer).2, rank := outer }
  | .outOfFuel => .outOfFuel

mutual

/-- Discharge a constraint. A conjunction and a boundary leave the checkpoint as they found it. -/
def solve (fuel : Nat) (ctx : Context) : Constraint → Solver → Run Unit
  | .trivial, st => .done () st
  | .checkpoint span, st => .done () { st with checkpoint := some span }
  | .equal expected actual span, st => st.equate fuel expected actual span
  | .conj items, st => (solveAll fuel ctx items st).restore st.checkpoint
  | .letIn vars header defs body, st =>
    (leave ctx st.rank vars header defs (solve fuel ctx defs st.enter)).andThen fun ctx' st' =>
      solveBody fuel ctx' st.checkpoint body { st' with checkpoint := st.checkpoint }
  | .instanceOf name t span, st => st.equateInstance fuel ctx name t span

def solveAll (fuel : Nat) (ctx : Context) : List Constraint → Solver → Run Unit
  | [], st => .done () st
  | c :: cs, st => (solve fuel ctx c st).andThen fun _ st' => solveAll fuel ctx cs st'

/-- Discharge the body of a boundary and return to the checkpoint `saved` of the outermost
boundary of the chain. A boundary directly inside continues the chain. -/
def solveBody (fuel : Nat) (ctx : Context) (saved : Option Span) :
    Constraint → Solver → Run Unit
  | .letIn vars header defs body, st =>
    (leave ctx st.rank vars header defs (solve fuel ctx defs st.enter)).andThen fun ctx' st' =>
      solveBody fuel ctx' saved body { st' with checkpoint := saved }
  | .trivial, st => .done () { st with checkpoint := saved }
  | .checkpoint _, st => .done () { st with checkpoint := saved }
  | .equal expected actual span, st => (st.equate fuel expected actual span).restore saved
  | .conj items, st => (solveAll fuel ctx items st).restore saved
  | .instanceOf name t span, st => (st.equateInstance fuel ctx name t span).restore saved

end

end Solver
end TypeSolver
