import TypeSolver.Proofs.Fragments
import TypeSolver.Proofs.Simulation

/-!
# TypeSolver.Proofs.Normalization

Conjunctions are kept flat, which takes away the inner ones, at whose ends the solver goes back to
the checkpoint it had before. A run does not depend on checkpoints (`Unmarked.simulation`); all they
do is to label the errors. So a constraint may be replaced by its parts (`solve_alike_parts`), and
the flat conjunction of constraints is solved as the plain list of them (`solve_all_alike_conj`):
with the same fatal error or none, the same store, the same schemes, and the same errors up to
their labels.
-/

namespace TypeSolver

def TypeError.unmarked (e : TypeError) : Mismatch × Span := (e.mismatch, e.span)

namespace Solver

/-- The states differ only in checkpoints: in the present one and in those of the errors. -/
structure Unmarked (st st' : Solver) : Prop where
  store : st.store = st'.store
  rank : st.rank = st'.rank
  topLevel : st.topLevel = st'.topLevel
  maxErrors : st.maxErrors = st'.maxErrors
  suppressed : st.suppressed = st'.suppressed
  errors : st.errors.map TypeError.unmarked = st'.errors.map TypeError.unmarked

namespace Unmarked

variable {st st' st'' : Solver}

theorem refl (st : Solver) : Unmarked st st := ⟨rfl, rfl, rfl, rfl, rfl, rfl⟩

section

variable (h : Unmarked st st')

include h

theorem trans (h' : Unmarked st' st'') : Unmarked st st'' :=
  ⟨h.store.trans h'.store, h.rank.trans h'.rank, h.topLevel.trans h'.topLevel,
    h.maxErrors.trans h'.maxErrors, h.suppressed.trans h'.suppressed, h.errors.trans h'.errors⟩

theorem symm : Unmarked st' st :=
  ⟨h.store.symm, h.rank.symm, h.topLevel.symm, h.maxErrors.symm, h.suppressed.symm, h.errors.symm⟩

theorem setCheckpoint (saved saved' : Option Span) :
    Unmarked { st with checkpoint := saved } { st' with checkpoint := saved' } :=
  ⟨h.store, h.rank, h.topLevel, h.maxErrors, h.suppressed, h.errors⟩

theorem setStore (s : Store) : Unmarked { st with store := s } { st' with store := s } :=
  ⟨rfl, h.rank, h.topLevel, h.maxErrors, h.suppressed, h.errors⟩

theorem isFull : st.isFull = st'.isFull := by
  have hlength : st.errors.length = st'.errors.length := by
    simpa only [List.length_map] using congrArg List.length h.errors
  rw [Solver.isFull, Solver.isFull, h.maxErrors, hlength]

theorem report (m : Mismatch) (span : Span) : Unmarked (st.report m span) (st'.report m span) := by
  rw [Solver.report, Solver.report, h.isFull]
  split
  · exact ⟨h.store, h.rank, h.topLevel, h.maxErrors, congrArg (· + 1) h.suppressed, h.errors⟩
  · refine ⟨h.store, h.rank, h.topLevel, h.maxErrors, h.suppressed, ?_⟩
    simp only [List.map_append, h.errors, List.map_cons, List.map_nil, TypeError.unmarked]

end

/-- Nothing that the solver does depends on checkpoints. -/
theorem simulation (fuel : Nat) : Simulation fuel Unmarked where
  rank h := h.rank
  setRank _ h := ⟨h.store, rfl, h.topLevel, h.maxErrors, h.suppressed, h.errors⟩
  mark _ h := h.setCheckpoint _ _
  restore _ h := h.setCheckpoint _ _
  generalize header outer h := by rw [h.store]; exact ⟨rfl, h.setStore _⟩
  bindTopLevel header scheme h := ⟨h.store, h.rank, congrArg (bindNames · header scheme) h.topLevel,
    h.maxErrors, h.suppressed, h.errors⟩
  equate expected actual span h := by
    rw [equate, equate, h.store]
    split
    · exact .done (h.setStore _)
    · exact .done ((h.setStore _).report _ _)
    · exact .outOfFuel
  instantiate {st st'} quantifiers t h := by
    have hsame : st.store.instantiate fuel quantifiers st.rank t =
        st'.store.instantiate fuel quantifiers st'.rank t := by rw [h.store, h.rank]
    rw [hsame]
    cases st'.store.instantiate fuel quantifiers st'.rank t with
    | none => exact .none
    | some x => exact .some ⟨rfl, h.setStore x.2⟩

end Unmarked
end Solver

namespace Run

variable {α : Type}

theorem Alike.unmarked_refl (r : Run α) : Alike Solver.Unmarked r r := by
  cases r with
  | done a st => exact .done (.refl st)
  | fatal e st => exact .fatal (.refl st)
  | outOfFuel => exact .outOfFuel

theorem Alike.unmarked_symm {r r' : Run α} (h : Alike Solver.Unmarked r r') :
    Alike Solver.Unmarked r' r := by
  cases h with
  | done h => exact .done h.symm
  | fatal h => exact .fatal h.symm
  | outOfFuel => exact .outOfFuel

theorem Alike.unmarked_trans {r r' r'' : Run α} (h : Alike Solver.Unmarked r r')
    (h' : Alike Solver.Unmarked r' r'') : Alike Solver.Unmarked r r'' := by
  cases h with
  | done h => cases h' with | done h' => exact .done (h.trans h')
  | fatal h => cases h' with | fatal h' => exact .fatal (h.trans h')
  | outOfFuel => exact h'

theorem alike_restore (r : Run Unit) (saved : Option Span) :
    Alike Solver.Unmarked (r.restore saved) r := by
  cases r with
  | done _ st => exact .done ((Solver.Unmarked.refl st).setCheckpoint saved st.checkpoint)
  | fatal e st => exact .fatal (.refl st)
  | outOfFuel => exact .outOfFuel

end Run

namespace Constraint

theorem parts_all (cs : List Constraint) : (all cs).parts = cs.flatMap parts := by
  induction cs with
  | nil => rfl
  | cons c cs ih => rw [all_cons, parts_and, ih, List.flatMap_cons]

end Constraint

namespace Solver

variable (fuel : Nat) (ctx : Context)

theorem solveAll_append (cs ds : List Constraint) (st : Solver) :
    solveAll fuel ctx (cs ++ ds) st =
      (solveAll fuel ctx cs st).andThen fun _ st' => solveAll fuel ctx ds st' := by
  induction cs generalizing st with
  | nil => rw [List.nil_append, solveAll, Run.andThen]
  | cons c cs ih =>
    rw [List.cons_append, solveAll, solveAll]
    cases solve fuel ctx c st with
    | done _ st' => exact ih st'
    | fatal e st' => rfl
    | outOfFuel => rfl

theorem solveAll_singleton (c : Constraint) (st : Solver) :
    solveAll fuel ctx [c] st = solve fuel ctx c st := by
  rw [solveAll]
  cases solve fuel ctx c st with
  | done _ st' => rw [Run.andThen, solveAll]
  | fatal e st' => rfl
  | outOfFuel => rfl

theorem solve_alike_parts (c : Constraint) (st : Solver) :
    Run.Alike Unmarked (solve fuel ctx c st) (solveAll fuel ctx c.parts st) := by
  cases c with
  | trivial => exact .unmarked_refl _
  | conj items => exact Run.alike_restore _ _
  | _ => simp only [Constraint.parts, solveAll_singleton]; exact .unmarked_refl _

theorem solveAll_flatMap_parts (cs : List Constraint) (st : Solver) :
    Run.Alike Unmarked (solveAll fuel ctx (cs.flatMap Constraint.parts) st)
      (solveAll fuel ctx cs st) := by
  induction cs generalizing st with
  | nil => exact .unmarked_refl _
  | cons c cs ih =>
    rw [List.flatMap_cons, solveAll_append, solveAll]
    refine (solve_alike_parts fuel ctx c st).unmarked_symm.andThen fun _ st1 st2 h => ?_
    -- the rest starts at another checkpoint: a run as a conjunction bridges the two
    have hrest := (Unmarked.simulation fuel).solve ctx (.conj (cs.flatMap Constraint.parts)) h
    exact ((Run.alike_restore _ _).unmarked_symm.unmarked_trans hrest).unmarked_trans
      ((Run.alike_restore _ _).unmarked_trans (ih st2))

/-- Keeping conjunctions flat does not change what is solved: the flat conjunction of constraints
and the one that lists them as they are end with the same fatal error or none, in states that differ
only in checkpoints. -/
theorem solve_all_alike_conj (cs : List Constraint) (st : Solver) :
    Run.Alike Unmarked (solve fuel ctx (Constraint.all cs) st)
      (solve fuel ctx (Constraint.conj cs) st) := by
  have hflat := solve_alike_parts fuel ctx (Constraint.all cs) st
  rw [Constraint.parts_all] at hflat
  have hlist := hflat.unmarked_trans (solveAll_flatMap_parts fuel ctx cs st)
  have hconj : Run.Alike Unmarked (solve fuel ctx (.conj cs) st) (solveAll fuel ctx cs st) :=
    solve_alike_parts fuel ctx (.conj cs) st
  exact hlist.unmarked_trans hconj.unmarked_symm

end Solver
end TypeSolver
