import TypeSolver.Proofs.Moments

/-!
# TypeSolver.Proofs.Bracketing

What a run of the solver hands back as it was. The rank is that of the beginning and the errors that
were recorded are still there, also when the run ends in a fatal error (`Run.Bracketed`). A run that
is not fatal returns to its checkpoint too, unless all it does is to set one.

A chain of boundaries is solved in a loop that keeps the first checkpoint. `solvePlainly` is the
solver without the loop: the body of a boundary is solved as any other constraint.
-/

namespace TypeSolver

/-- The run, which began at `st`, ended at the rank of `st` and with the errors of `st` before
others. -/
def Run.Bracketed {α : Type} (st : Solver) : Run α → Prop
  | .done _ st' => st'.rank = st.rank ∧ st.errors <+: st'.errors
  | .fatal _ st' => st'.rank = st.rank ∧ st.errors <+: st'.errors
  | .outOfFuel => True

namespace Run

variable {α β : Type} {st st' : Solver}

theorem Bracketed.trans {r : Run α} (h : r.Bracketed st') (hrank : st'.rank = st.rank)
    (herrors : st.errors <+: st'.errors) : r.Bracketed st := by
  cases r with
  | done a st2 => exact ⟨h.1.trans hrank, herrors.trans h.2⟩
  | fatal e st2 => exact ⟨h.1.trans hrank, herrors.trans h.2⟩
  | outOfFuel => exact .intro

theorem Bracketed.andThen {r : Run α} {f : α → Solver → Run β} (h : r.Bracketed st)
    (hf : ∀ a st', (f a st').Bracketed st') : (r.andThen f).Bracketed st := by
  cases r with
  | done a st1 => exact (hf a st1).trans h.1 h.2
  | fatal e st1 => exact h
  | outOfFuel => exact .intro

theorem Bracketed.restore {r : Run Unit} (h : r.Bracketed st) (saved : Option Span) :
    (r.restore saved).Bracketed st := by
  cases r with
  | done a st1 => exact h
  | fatal e st1 => exact h
  | outOfFuel => exact .intro

end Run

namespace Solver

variable {fuel : Nat} {ctx : Context} {st st' : Solver}

theorem equate_bracketed (st : Solver) (fuel : Nat) (expected actual : Ty) (span : Span) :
    (st.equate fuel expected actual span).Bracketed st := by
  rw [equate]
  split
  · exact ⟨rfl, List.prefix_rfl⟩
  · rename_i m s _
    exact ⟨report_rank { st with store := s } m span, errors_of_report { st with store := s } m span⟩
  · exact .intro

theorem equateInstance_bracketed (st : Solver) (fuel : Nat) (ctx : Context) (name : String) (t : Ty)
    (span : Span) : (st.equateInstance fuel ctx name t span).Bracketed st := by
  rw [equateInstance]
  split
  · exact ⟨rfl, List.prefix_rfl⟩
  split
  · exact ⟨rfl, List.prefix_rfl⟩
  split
  · exact .intro
  · rename_i s _
    exact equate_bracketed { st with store := s } fuel t _ span

theorem leave_bracketed {r : Run Unit} (vars : List Var) (header : Header) (defs : Constraint)
    (h : r.Bracketed st.enter) : (leave ctx st.rank vars header defs r).Bracketed st := by
  cases r with
  | done a st1 => exact ⟨rfl, h.2⟩
  | fatal e st1 => exact ⟨rfl, h.2⟩
  | outOfFuel => exact .intro

variable {cs : List Constraint}

theorem solveAll_bracketed (h : ∀ c ∈ cs, ∀ st, (solve fuel ctx c st).Bracketed st) (st : Solver) :
    (solveAll fuel ctx cs st).Bracketed st := by
  induction cs generalizing st with
  | nil =>
    exact ⟨rfl, List.prefix_rfl⟩
  | cons c cs ih =>
    exact (h c (by simp) st).andThen fun _ => ih fun d hd => h d (by simp [hd])

theorem solve_bracketed (c : Constraint) (ctx : Context) (st : Solver) :
    (solve fuel ctx c st).Bracketed st := by
  induction c generalizing ctx st with
  | trivial => exact ⟨rfl, List.prefix_rfl⟩
  | checkpoint span => exact ⟨rfl, List.prefix_rfl⟩
  | equal expected actual span => exact equate_bracketed ..
  | instanceOf name ty span => exact equateInstance_bracketed ..
  | conj items ih =>
    exact (solveAll_bracketed (fun c hc => ih c hc ctx) st).restore _
  | letIn vars header defs body ihd ihb =>
    rw [solve_letIn]
    refine (leave_bracketed vars header defs (ihd ctx st.enter)).andThen fun ctx' st' => ?_
    exact (ihb ctx' { st' with checkpoint := st.checkpoint }).restore _

theorem report_checkpoint (st : Solver) (m : Mismatch) (span : Span) :
    (st.report m span).checkpoint = st.checkpoint := by
  rw [report]; split <;> rfl

theorem checkpoint_of_equate {expected actual : Ty} {span : Span}
    (h : st.equate fuel expected actual span = .done () st') : st'.checkpoint = st.checkpoint := by
  rcases equate_eq_done h with ⟨s, _, rfl⟩ | ⟨m, s, _, rfl⟩
  · rfl
  · exact report_checkpoint { st with store := s } m span

theorem checkpoint_of_solve {c : Constraint} (h : solve fuel ctx c st = .done () st')
    (hc : ∀ span, c ≠ .checkpoint span) : st'.checkpoint = st.checkpoint := by
  cases c with
  | trivial => cases h; rfl
  | checkpoint span => exact absurd rfl (hc span)
  | equal expected actual span => exact checkpoint_of_equate h
  | instanceOf name ty span =>
    obtain ⟨_, _, _, s, _, _, _, h⟩ := equateInstance_eq_done h
    exact (checkpoint_of_equate h :)
  | conj items =>
    obtain ⟨_, _, rfl⟩ := Run.restore_eq_done h
    rfl
  | letIn vars header defs body =>
    obtain ⟨_, _, _, _, rfl⟩ := solve_letIn_eq_done h
    rfl

mutual

/-- The solver by plain recursion. The definitions of a boundary are solved and its names bound, the
checkpoint is restored, the body is solved, and the checkpoint is restored again. -/
def solvePlainly (fuel : Nat) (ctx : Context) : Constraint → Solver → Run Unit
  | .trivial, st => .done () st
  | .checkpoint span, st => .done () { st with checkpoint := some span }
  | .equal expected actual span, st => st.equate fuel expected actual span
  | .conj items, st => (solveAllPlainly fuel ctx items st).restore st.checkpoint
  | .letIn vars header defs body, st =>
    (leave ctx st.rank vars header defs (solvePlainly fuel ctx defs st.enter)).andThen
      fun ctx' st' =>
        (solvePlainly fuel ctx' body { st' with checkpoint := st.checkpoint }).restore st.checkpoint
  | .instanceOf name t span, st => st.equateInstance fuel ctx name t span

def solveAllPlainly (fuel : Nat) (ctx : Context) : List Constraint → Solver → Run Unit
  | [], st => .done () st
  | c :: cs, st =>
    (solvePlainly fuel ctx c st).andThen fun _ st' => solveAllPlainly fuel ctx cs st'

end

theorem solveAll_eq_plainly (h : ∀ c ∈ cs, solve fuel ctx c = solvePlainly fuel ctx c) :
    solveAll fuel ctx cs = solveAllPlainly fuel ctx cs := by
  induction cs with
  | nil => funext st; rw [solveAll, solveAllPlainly]
  | cons c cs ih =>
    funext st
    rw [solveAll, solveAllPlainly, h c (by simp), ih fun d hd => h d (by simp [hd])]

theorem solve_eq_plainly (c : Constraint) (ctx : Context) :
    solve fuel ctx c = solvePlainly fuel ctx c := by
  induction c generalizing ctx with
  | trivial => funext st; rw [solve, solvePlainly]
  | checkpoint span => funext st; rw [solve, solvePlainly]
  | equal expected actual span => funext st; rw [solve, solvePlainly]
  | instanceOf name ty span => funext st; rw [solve, solvePlainly]
  | conj items ih =>
    funext st
    rw [solve, solvePlainly, solveAll_eq_plainly fun c hc => ih c hc ctx]
  | letIn vars header defs body ihd ihb =>
    funext st
    rw [solve_letIn, solvePlainly, ihd]
    simp only [ihb]

/-- The state of the solver is bracketed. A run ends at the rank at which it began, also where a
fatal error ends it at any depth, and the errors of the beginning stay in front of those that it
records. If it is not fatal, it ends at the checkpoint at which it began unless the constraint is a
checkpoint itself. The loop over a chain of boundaries gives the result and the state of the plain
recursion, at each boundary of a constraint and for the whole of it. -/
theorem solve_restores (fuel : Nat) (ctx : Context) (c : Constraint) (st : Solver) :
    (∀ st', solve fuel ctx c st = .done () st' → st'.rank = st.rank ∧
      ((∀ span, c ≠ .checkpoint span) → st'.checkpoint = st.checkpoint) ∧
      st.errors <+: st'.errors) ∧
    (∀ e st', solve fuel ctx c st = .fatal e st' → st'.rank = st.rank ∧ st.errors <+: st'.errors) ∧
    (∀ vars header defs body, c = .letIn vars header defs body → solve fuel ctx c st =
      (leave ctx st.rank vars header defs (solve fuel ctx defs st.enter)).andThen fun ctx' st' =>
        (solve fuel ctx' body { st' with checkpoint := st.checkpoint }).restore st.checkpoint) ∧
    solve fuel ctx c st = solvePlainly fuel ctx c st := by
  have hbracketed : (solve fuel ctx c st).Bracketed st := solve_bracketed c ctx st
  refine ⟨fun st' h => ?_, fun e st' h => ?_, ?_, congrFun (solve_eq_plainly c ctx) st⟩
  · rw [h] at hbracketed
    exact ⟨hbracketed.1, checkpoint_of_solve h, hbracketed.2⟩
  · rw [h] at hbracketed
    exact hbracketed
  · rintro vars header defs body rfl
    exact solve_letIn fuel ctx vars header defs body st

/-- Two boundaries in a chain. The definitions of the first one have an error below a checkpoint,
and the body of the second one is a checkpoint. -/
def chain : Constraint :=
  .letIn [] [] (.conj [.checkpoint (.wholeLine 1), .equal .int .string (.wholeLine 2)])
    (.letIn [] [] .trivial (.checkpoint (.wholeLine 3)))

def doomed : Constraint :=
  .letIn [] [] (.letIn [] [] (.conj [.checkpoint (.wholeLine 1), .equal .int .string (.wholeLine 2),
    .instanceOf "x" .int (.wholeLine 3)]) .trivial) .trivial

def underway : Solver := { store := {}, rank := 3, checkpoint := some (.wholeLine 0) }

theorem solve_restores_chain :
    (∃ st, solve 9 [] chain underway = .done () st ∧ st.errors.length = 1 ∧ st.rank = 3 ∧
      st.checkpoint = some (.wholeLine 0)) ∧
    ∃ e st, solve 9 [] doomed underway = .fatal e st ∧ st.errors.length = 1 ∧ st.rank = 3 ∧
      st.checkpoint = some (.wholeLine 1) := by
  obtain ⟨st, hchain, herrors⟩ : ∃ st, solve 9 [] chain underway = .done () st ∧
      st.errors.length = 1 := ⟨_, rfl, rfl⟩
  obtain ⟨e, st', hdoomed, herrors', hmark⟩ : ∃ e st, solve 9 [] doomed underway = .fatal e st ∧
      st.errors.length = 1 ∧ st.checkpoint = some (.wholeLine 1) := ⟨_, _, rfl, rfl, rfl⟩
  obtain ⟨hdone, _⟩ := solve_restores 9 [] chain underway
  obtain ⟨_, hfatal, _⟩ := solve_restores 9 [] doomed underway
  obtain ⟨hrank, hcheckpoint, _⟩ := hdone st hchain
  exact ⟨⟨st, hchain, herrors, hrank, hcheckpoint (by simp [chain])⟩,
    ⟨e, st', hdoomed, herrors', (hfatal e st' hdoomed).1, hmark⟩⟩

end Solver
end TypeSolver
