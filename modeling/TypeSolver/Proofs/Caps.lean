import Mathlib
import TypeSolver.Proofs.Simulation

/-!
# TypeSolver.Proofs.Caps

Keeping few errors changes nothing but what is kept. A solver with a cap and one without go through
the same states, except that the first keeps only the beginning of the list of errors and counts the
others (`Capped`). As it keeps one error at least, it never takes a program with errors for one
without.
-/

namespace TypeSolver

namespace Solver

/-- The states differ in the errors only: the first keeps `max cap 1` of them at most, and counts
the rest. -/
structure Capped (cap : Nat) (st st' : Solver) : Prop where
  store : st.store = st'.store
  rank : st.rank = st'.rank
  checkpoint : st.checkpoint = st'.checkpoint
  topLevel : st.topLevel = st'.topLevel
  maxErrors : st.maxErrors = some cap
  maxErrors' : st'.maxErrors = none
  errors : st.errors = st'.errors.take (max cap 1)
  total : st.errors.length + st.suppressed = st'.errors.length
  suppressed : st'.suppressed = 0

namespace Capped

variable {cap : Nat} {st st' : Solver}

theorem ofStore (s : Store) (cap : Nat) : Capped cap (.ofStore s (some cap)) (.ofStore s none) :=
  ⟨rfl, rfl, rfl, rfl, rfl, rfl, List.take_nil.symm, rfl, rfl⟩

section

variable (h : Capped cap st st')

include h

/-- There is an error on both sides or on neither. -/
theorem errors_eq_nil_iff : st.errors = [] ↔ st'.errors = [] := by
  rw [h.errors, List.take_eq_nil_iff]
  exact or_iff_right (by omega)

theorem setStore (s : Store) : Capped cap { st with store := s } { st' with store := s } :=
  ⟨rfl, h.rank, h.checkpoint, h.topLevel, h.maxErrors, h.maxErrors', h.errors, h.total, h.suppressed⟩

theorem report (m : Mismatch) (span : Span) :
    Capped cap (st.report m span) (st'.report m span) := by
  have hall : st'.report m span = { st' with errors := st'.errors ++ [⟨m, span, st'.checkpoint⟩] } := by
    rw [Solver.report, isFull, h.maxErrors']
    rfl
  have hfull : st.isFull = decide (max cap 1 ≤ st.errors.length) := by rw [isFull, h.maxErrors]
  have hlen : st.errors.length = min (max cap 1) st'.errors.length := by
    rw [h.errors, List.length_take]
  rw [hall, Solver.report, hfull]
  split
  · rename_i hle
    have hle : max cap 1 ≤ st'.errors.length := by simp only [decide_eq_true_eq] at hle; omega
    refine ⟨h.store, h.rank, h.checkpoint, h.topLevel, h.maxErrors, h.maxErrors', ?_, ?_, h.suppressed⟩
    · exact h.errors.trans (List.take_append_of_le_length hle).symm
    · have htotal := h.total
      simp only [List.length_append, List.length_singleton]
      omega
  · rename_i hlt
    have hlt : st'.errors.length < max cap 1 := by simp only [decide_eq_true_eq] at hlt; omega
    have hkept : st.errors = st'.errors := h.errors.trans (List.take_of_length_le (hlt.le))
    refine ⟨h.store, h.rank, h.checkpoint, h.topLevel, h.maxErrors, h.maxErrors', ?_, ?_, h.suppressed⟩
    · simp only [hkept, h.checkpoint]
      refine (List.take_of_length_le ?_).symm
      rw [List.length_append, List.length_singleton]
      exact Nat.succ_le_of_lt hlt
    · have htotal := h.total
      simp only [List.length_append, List.length_singleton]
      omega

theorem equate (fuel : Nat) (expected actual : Ty) (span : Span) :
    Run.Alike (Capped cap) (st.equate fuel expected actual span)
      (st'.equate fuel expected actual span) := by
  rw [Solver.equate, Solver.equate, h.store]
  cases Store.unify fuel expected actual st'.store with
  | unified s => exact .done (h.setStore s)
  | failed m s => exact .done ((h.setStore s).report m span)
  | outOfFuel => exact .outOfFuel

theorem instantiate (fuel : Nat) (quantifiers : List Var) (t : Ty) :
    Option.Rel (fun x y => x.1 = y.1 ∧ Capped cap { st with store := x.2 } { st' with store := y.2 })
      (st.store.instantiate fuel quantifiers st.rank t)
      (st'.store.instantiate fuel quantifiers st'.rank t) := by
  have heq : st.store.instantiate fuel quantifiers st.rank t =
      st'.store.instantiate fuel quantifiers st'.rank t := by rw [h.store, h.rank]
  rw [heq]
  cases st'.store.instantiate fuel quantifiers st'.rank t with
  | none => exact .none
  | some x => exact .some ⟨rfl, h.setStore x.2⟩

end

theorem simulation (fuel cap : Nat) : Simulation fuel (Capped cap) where
  rank h := h.rank
  setRank _ h := ⟨h.store, rfl, h.checkpoint, h.topLevel, h.maxErrors, h.maxErrors', h.errors,
    h.total, h.suppressed⟩
  mark _ h := ⟨h.store, h.rank, rfl, h.topLevel, h.maxErrors, h.maxErrors', h.errors, h.total,
    h.suppressed⟩
  restore h0 h := ⟨h.store, h.rank, h0.checkpoint, h.topLevel, h.maxErrors, h.maxErrors', h.errors,
    h.total, h.suppressed⟩
  generalize header outer h := by rw [h.store]; exact ⟨rfl, h.setStore _⟩
  bindTopLevel header scheme h := ⟨h.store, h.rank, h.checkpoint,
    congrArg (bindNames · header scheme) h.topLevel, h.maxErrors, h.maxErrors', h.errors, h.total,
    h.suppressed⟩
  equate expected actual span h := h.equate fuel expected actual span
  instantiate quantifiers t h := h.instantiate fuel quantifiers t

end Capped
end Solver

namespace InferError

/-- What is reported when at most `max cap 1` errors are kept. -/
def capped (cap : Nat) : InferError → InferError
  | .types errors suppressed =>
    .types (errors.take (max cap 1)) (suppressed + (errors.length - max cap 1))
  | .fatal e => .fatal e

def total : InferError → Nat
  | .types errors suppressed => errors.length + suppressed
  | .fatal _ => 0

theorem total_capped (cap : Nat) (e : InferError) : (e.capped cap).total = e.total := by
  cases e with
  | types errors suppressed => simp only [capped, total, List.length_take]; omega
  | fatal => rfl

end InferError

theorem inferProgram_eq_capped (fuel cap : Nat) (program : Program) (env : Environment)
    (compress : Bool) : inferProgram fuel program env ⟨compress, some cap⟩ =
      (inferProgram fuel program env ⟨compress, none⟩).map (Except.mapError (·.capped cap)) := by
  rw [inferProgram, inferProgram]
  cases Prepared.ofProgram program env with
  | error e => rfl
  | ok p =>
    have hrun := (Solver.Capped.simulation fuel cap).solve p.context p.constraint
      (.ofStore { p.store with compress := compress } cap)
    simp only [Prepared.solve]
    generalize Solver.solve fuel p.context p.constraint
      (.ofStore { p.store with compress := compress } (some cap)) = r,
      Solver.solve fuel p.context p.constraint
        (.ofStore { p.store with compress := compress } none) = r' at hrun ⊢
    cases hrun with
    | outOfFuel => rfl
    | fatal => rfl
    | @done _ st st' h =>
      simp only [List.isEmpty_iff, h.errors_eq_nil_iff, h.store, h.topLevel]
      split
      · split
        · rfl
        · rename_i bindings s _
          cases resolveNodeTypes fuel p.nodeTypes s <;> rfl
      · -- what was not kept was counted
        have hrest : st.suppressed = st'.suppressed + (st'.errors.length - max cap 1) := by
          have htotal := h.total
          rw [h.errors, List.length_take] at htotal
          rw [h.suppressed]
          omega
        rw [h.errors, hrest]
        rfl

open Solver in
/-- A cap on the errors has no effect but on which of them are kept. Solvers with and without a cap
that are given the same constraints in turn list the same fatal errors and end in the same state;
the first has kept the first errors of the second and counted the others. So a program gets types
with a cap if and only if it does without, and as many errors are found in it. -/
theorem cap_keeps_first (fuel cap : Nat) :
    (∀ (s : Store) (work : List (Context × Constraint)),
      Option.Rel (fun x y => x.1 = y.1 ∧ x.2.store = y.2.store ∧ x.2.rank = y.2.rank ∧
          x.2.checkpoint = y.2.checkpoint ∧ x.2.topLevel = y.2.topLevel ∧
          x.2.errors = y.2.errors.take (max cap 1) ∧
          x.2.errors.length + x.2.suppressed = y.2.errors.length)
        (solveEach fuel work (.ofStore s (some cap))) (solveEach fuel work (.ofStore s none))) ∧
    ∀ (program : Program) (env : Environment) (compress : Bool),
      (∀ typed, inferProgram fuel program env ⟨compress, some cap⟩ = some (.ok typed) ↔
        inferProgram fuel program env ⟨compress, none⟩ = some (.ok typed)) ∧
      (inferProgram fuel program env ⟨compress, some cap⟩).map (Except.mapError InferError.total) =
        (inferProgram fuel program env ⟨compress, none⟩).map (Except.mapError InferError.total) := by
  refine ⟨fun s work => ?_, fun program env compress => ?_⟩
  · have hrun := (Capped.simulation fuel cap).solveEach work (.ofStore s cap)
    generalize solveEach fuel work (.ofStore s (some cap)) = r,
      solveEach fuel work (.ofStore s none) = r' at hrun ⊢
    cases hrun with
    | none => exact .none
    | some h =>
      obtain ⟨hfatal, h⟩ := h
      exact .some ⟨hfatal, h.store, h.rank, h.checkpoint, h.topLevel, h.errors, h.total⟩
  · rw [inferProgram_eq_capped]
    cases inferProgram fuel program env ⟨compress, none⟩ with
    | none => simp
    | some r =>
      cases r with
      | error e => simp [Except.mapError, InferError.total_capped]
      | ok typed => simp [Except.mapError]

end TypeSolver
