import TypeSolver.Proofs.Moments

/-!
# TypeSolver.Proofs.Simulation

Two runs of the solver side by side. A relation between states that every single thing the solver
does keeps up is kept up by whole runs (`Simulation.solve`): both end with the same result or the
same fatal error, or both are undecided. Several constraints can be given to one solver in turn, and
a fatal error in one of them does not stop the next (`solveEach`).
-/

namespace TypeSolver

namespace Run

variable {α β : Type}

/-- The runs end alike, in states that `R` relates. -/
inductive Alike (R : Solver → Solver → Prop) : Run α → Run α → Prop where
  | done {a : α} {st st' : Solver} : R st st' → Alike R (.done a st) (.done a st')
  | fatal {e : FatalError} {st st' : Solver} : R st st' → Alike R (.fatal e st) (.fatal e st')
  | outOfFuel : Alike R .outOfFuel .outOfFuel

theorem Alike.andThen {R : Solver → Solver → Prop} {r r' : Run α} {f f' : α → Solver → Run β}
    (h : Alike R r r') (hf : ∀ a st st', R st st' → Alike R (f a st) (f' a st')) :
    Alike R (r.andThen f) (r'.andThen f') := by
  cases h with
  | done h => exact hf _ _ _ h
  | fatal h => exact .fatal h
  | outOfFuel => exact .outOfFuel

end Run

namespace Solver

/-- What is kept up by each thing that the solver does. -/
structure Simulation (fuel : Nat) (R : Solver → Solver → Prop) : Prop where
  rank : ∀ {st st'}, R st st' → st.rank = st'.rank
  setRank : ∀ {st st'} rank, R st st' → R { st with rank := rank } { st' with rank := rank }
  mark : ∀ {st st'} span, R st st' →
    R { st with checkpoint := some span } { st' with checkpoint := some span }
  /-- Related states may return to the checkpoints of related states. -/
  restore : ∀ {st0 st0' st st'}, R st0 st0' → R st st' →
    R { st with checkpoint := st0.checkpoint } { st' with checkpoint := st0'.checkpoint }
  generalize : ∀ {st st'} header outer, R st st' →
    (st.store.generalize header outer).1 = (st'.store.generalize header outer).1 ∧
      R { st with store := (st.store.generalize header outer).2 }
        { st' with store := (st'.store.generalize header outer).2 }
  bindTopLevel : ∀ {st st'} header scheme, R st st' →
    R { st with topLevel := bindNames st.topLevel header scheme }
      { st' with topLevel := bindNames st'.topLevel header scheme }
  equate : ∀ {st st'} expected actual span, R st st' →
    Run.Alike R (st.equate fuel expected actual span) (st'.equate fuel expected actual span)
  instantiate : ∀ {st st'} quantifiers t, R st st' →
    Option.Rel (fun x y => x.1 = y.1 ∧ R { st with store := x.2 } { st' with store := y.2 })
      (st.store.instantiate fuel quantifiers st.rank t)
      (st'.store.instantiate fuel quantifiers st'.rank t)

namespace Simulation

variable {fuel : Nat} {R : Solver → Solver → Prop} (hR : Simulation fuel R) {st st' : Solver}

include hR

theorem restoreRun {r r' : Run Unit} (h0 : R st st') (h : Run.Alike R r r') :
    Run.Alike R (r.restore st.checkpoint) (r'.restore st'.checkpoint) := by
  cases h with
  | done h => exact .done (hR.restore h0 h)
  | fatal h => exact .fatal h
  | outOfFuel => exact .outOfFuel

theorem leave {r r' : Run Unit} (h : Run.Alike R r r') (ctx : Context) (outer : Rank)
    (vars : List Var) (header : Header) (defs : Constraint) :
    Run.Alike R (leave ctx outer vars header defs r) (leave ctx outer vars header defs r') := by
  cases h with
  | fatal h => exact .fatal (hR.setRank outer (hR.generalize header outer h).2)
  | outOfFuel => exact .outOfFuel
  | @done _ st st' h =>
    obtain ⟨hquantifiers, hstore⟩ := hR.generalize header outer h
    rw [Solver.leave, Solver.leave]
    dsimp only
    rw [← hquantifiers]
    refine .done ?_
    split
    · exact hR.setRank outer (hR.bindTopLevel header _ hstore)
    · exact hR.setRank outer hstore

theorem equateInstance (h : R st st') (ctx : Context) (name : String) (t : Ty) (span : Span) :
    Run.Alike R (st.equateInstance fuel ctx name t span)
      (st'.equateInstance fuel ctx name t span) := by
  rw [Solver.equateInstance, Solver.equateInstance]
  cases Assoc.get? ctx name with
  | none => exact .fatal h
  | some scheme =>
    cases hu : scheme.typeOf? name with
    | none => simp only [hu]; exact .fatal h
    | some u =>
      have hinst := hR.instantiate scheme.quantifiers u h
      simp only [hu]
      generalize st.store.instantiate fuel scheme.quantifiers st.rank u = x,
        st'.store.instantiate fuel scheme.quantifiers st'.rank u = y at hinst ⊢
      cases hinst with
      | none => exact .outOfFuel
      | @some x y h =>
        obtain ⟨u, s⟩ := x
        obtain ⟨u', s'⟩ := y
        obtain ⟨rfl, h⟩ := h
        exact hR.equate t u span h

theorem solve (ctx : Context) (c : Constraint) (h : R st st') :
    Run.Alike R (solve fuel ctx c st) (solve fuel ctx c st') := by
  induction c generalizing ctx st st' with
  | trivial => exact .done h
  | checkpoint span => exact .done (hR.mark span h)
  | equal expected actual span => exact hR.equate _ _ _ h
  | instanceOf name t span => exact hR.equateInstance h _ _ _ _
  | conj items ih =>
    have hall : ∀ {st st' : Solver}, R st st' →
        Run.Alike R (solveAll fuel ctx items st) (solveAll fuel ctx items st') := by
      induction items with
      | nil => intro st st' h; exact .done h
      | cons c cs ihcs =>
        intro st st' h
        exact (ih c List.mem_cons_self ctx h).andThen fun _ _ _ h =>
          ihcs (fun d hd => ih d (List.mem_cons_of_mem c hd)) h
    exact hR.restoreRun h (hall h)
  | letIn vars header defs body ihd ihb =>
    rw [solve_letIn, solve_letIn, ← hR.rank h]
    have hdefs : Run.Alike R (Solver.solve fuel ctx defs st.enter)
        (Solver.solve fuel ctx defs st'.enter) := by
      refine ihd ctx ?_
      rw [enter, enter, ← hR.rank h]
      exact hR.setRank _ h
    exact (hR.leave hdefs ctx _ vars header defs).andThen fun ctx' _ _ h' =>
      hR.restoreRun h (ihb ctx' (hR.restore h h'))

end Simulation

/-- Give constraints to one solver in turn, each with its scope. The state is handed on also after a
fatal error, and the fatal errors are listed. `none` means out of fuel. -/
def solveEach (fuel : Nat) : List (Context × Constraint) → Solver →
    Option (List (Option FatalError) × Solver)
  | [], st => some ([], st)
  | (ctx, c) :: rest, st =>
    match solve fuel ctx c st with
    | .done _ st' => (solveEach fuel rest st').map fun (es, st) => (none :: es, st)
    | .fatal e st' => (solveEach fuel rest st').map fun (es, st) => (some e :: es, st)
    | .outOfFuel => none

theorem Simulation.solveEach {fuel : Nat} {R : Solver → Solver → Prop} (hR : Simulation fuel R)
    (work : List (Context × Constraint)) {st st' : Solver} (h : R st st') :
    Option.Rel (fun x y => x.1 = y.1 ∧ R x.2 y.2) (solveEach fuel work st)
      (solveEach fuel work st') := by
  induction work generalizing st st' with
  | nil => exact .some ⟨rfl, h⟩
  | cons e rest ih =>
    obtain ⟨ctx, c⟩ := e
    rw [Solver.solveEach, Solver.solveEach]
    have hrest : ∀ {st st' : Solver} (e : Option FatalError), R st st' →
        Option.Rel (fun x y => x.1 = y.1 ∧ R x.2 y.2)
          ((Solver.solveEach fuel rest st).map fun (es, st) => (e :: es, st))
          ((Solver.solveEach fuel rest st').map fun (es, st) => (e :: es, st)) := by
      intro st st' e h
      have hih := ih h
      generalize Solver.solveEach fuel rest st = x, Solver.solveEach fuel rest st' = y at hih
      cases hih with
      | some h => exact .some ⟨congrArg (e :: ·) h.1, h.2⟩
      | none => exact .none
    have hfirst := hR.solve ctx c h
    generalize Solver.solve fuel ctx c st = r, Solver.solve fuel ctx c st' = r' at hfirst
    cases hfirst with
    | done h => exact hrest none h
    | fatal h => exact hrest (some _) h
    | outOfFuel => exact .none

end Solver
end TypeSolver
