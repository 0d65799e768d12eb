import TypeSolver.Proofs.Copies
import TypeSolver.Proofs.Moments
import TypeSolver.Proofs.MostGeneral

/-!
# TypeSolver.Proofs.Successes

Solving without errors, as a relation between stores. `Solves ctx rank c s s'` has one rule for
each form of constraint; it does not speak of fuel, checkpoints and counters. A run without errors
is such a derivation (`Solver.solves_of_solve`), and inside a boundary a derivation is a run, given
enough fuel (`Solves.enoughFuel`). There is at most one store that a constraint leads to
(`Solves.unique`).
-/

namespace TypeSolver

namespace Copying

variable {qs : List Var} {rank : Rank} {c c' : Copying} {t u : Ty}

theorem copy_succ {k : Nat} (h : (copy qs rank k t).run c = some (u, c')) :
    (copy qs rank (k + 1) t).run c = some (u, c') := by
  induction k generalizing t c u c' with
  | zero => cases h
  | succ k ih =>
    cases t with
    | var v =>
      cases hget : Assoc.get? c.copies (c.store.root v) with
      | some w => rw [copy_known hget] at h ⊢; exact h
      | none =>
        rw [copy_new hget] at h ⊢
        cases hcon : (c.store.find v).2.content (c.store.root v) with
        | bound t => rw [hcon] at h; exact ih h
        | unbound rank' hint => rw [hcon] at h; exact h
        | poisoned => rw [hcon] at h; exact h
    | func arg ret =>
      obtain ⟨⟨a, c1⟩, ha, h⟩ := Option.bind_eq_some_iff.mp h
      obtain ⟨⟨r, c2⟩, hr, h⟩ := Option.bind_eq_some_iff.mp h
      refine Option.bind_eq_some_iff.mpr ⟨_, ih ha, Option.bind_eq_some_iff.mpr ⟨_, ih hr, h⟩⟩
    | app name args =>
      obtain ⟨⟨ts, c1⟩, hts, h⟩ := Option.bind_eq_some_iff.mp h
      have hts' := (mapM_run_eq_some.mp hts).imp fun a _ st b st' hrun => ih hrun
      exact Option.bind_eq_some_iff.mpr ⟨_, mapM_run_eq_some.mpr hts', h⟩
    | record fields ext =>
      have hmap : ∀ {fs c1}, (fields.mapM (copyField qs rank k)).run c = some (fs, c1) →
          (fields.mapM (copyField qs rank (k + 1))).run c = some (fs, c1) := by
        intro fs c1 hfs
        refine mapM_run_eq_some.mpr ((mapM_run_eq_some.mp hfs).imp fun f _ st g st' hrun => ?_)
        obtain ⟨⟨u, c2⟩, hu, hrun⟩ := Option.bind_eq_some_iff.mp hrun
        exact Option.bind_eq_some_iff.mpr ⟨_, ih hu, hrun⟩
      cases ext with
      | none =>
        obtain ⟨⟨fs, c1⟩, hfs, h⟩ := Option.bind_eq_some_iff.mp h
        exact Option.bind_eq_some_iff.mpr ⟨_, hmap hfs, h⟩
      | some v =>
        obtain ⟨⟨fs, c1⟩, hfs, h⟩ := Option.bind_eq_some_iff.mp h
        obtain ⟨⟨rest, c2⟩, hrest, h⟩ := Option.bind_eq_some_iff.mp h
        exact Option.bind_eq_some_iff.mpr ⟨_, hmap hfs,
          Option.bind_eq_some_iff.mpr ⟨_, ih hrest, h⟩⟩

end Copying

namespace Store

variable {s s' : Store} {qs : List Var} {rank : Rank} {t u : Ty}

/-- With enough fuel, the type `t` is instantiated to `u`, and the copies are in `s'`. -/
def Instantiated (s : Store) (qs : List Var) (rank : Rank) (t u : Ty) (s' : Store) : Prop :=
  EnoughFuel fun k => s.instantiate k qs rank t = some (u, s')

theorem instantiated_of_eq {k : Nat} (h : s.instantiate k qs rank t = some (u, s')) :
    s.Instantiated qs rank t u s' := by
  refine ⟨k, fun k' hk => ?_⟩
  induction hk with
  | refl => exact h
  | step _ ih =>
    cases qs with
    | nil => exact ih
    | cons q qs =>
      obtain ⟨⟨u, c⟩, hcopy, heq⟩ := Option.map_eq_some_iff.mp ih
      exact Option.map_eq_some_iff.mpr ⟨_, Copying.copy_succ hcopy, heq⟩

theorem completes_of_unify {k : Nat} {l r : Ty} (h : unify k l r s = .unified s') :
    Completes (.types l r) s (.unified s') :=
  (runs_of_ran (c := .types l r) (n := k) ⟨h, by simp⟩).completes

end Store

/-- The constraint, met in the context at the given rank, takes the store `s` to `s'` without an
error. -/
inductive Solves : Context → Rank → Constraint → Store → Store → Prop where
  | trivial {ctx : Context} {rank : Rank} {s : Store} : Solves ctx rank .trivial s s
  | checkpoint {ctx : Context} {rank : Rank} {span : Span} {s : Store} :
      Solves ctx rank (.checkpoint span) s s
  | equal {ctx : Context} {rank : Rank} {expected actual : Ty} {span : Span} {s s' : Store} :
      Store.Completes (.types expected actual) s (.unified s') →
      Solves ctx rank (.equal expected actual span) s s'
  | instanceOf {ctx : Context} {rank : Rank} {name : String} {ty u u' : Ty} {span : Span}
      {scheme : Scheme} {s s1 s' : Store} : Assoc.get? ctx name = some scheme →
      scheme.typeOf? name = some u → s.Instantiated scheme.quantifiers rank u u' s1 →
      Store.Completes (.types ty u') s1 (.unified s') →
      Solves ctx rank (.instanceOf name ty span) s s'
  | nil {ctx : Context} {rank : Rank} {s : Store} : Solves ctx rank (.conj []) s s
  | cons {ctx : Context} {rank : Rank} {c : Constraint} {cs : List Constraint} {s s1 s' : Store} :
      Solves ctx rank c s s1 → Solves ctx rank (.conj cs) s1 s' →
      Solves ctx rank (.conj (c :: cs)) s s'
  | letIn {ctx : Context} {rank : Rank} {vars : List Var} {header : Header}
      {defs body : Constraint} {qs : List Var} {s s1 s2 s' : Store} :
      Solves ctx (rank + 1) defs s s1 → s1.generalize header rank = (qs, s2) →
      Solves (Solver.bindNames ctx header ⟨qs, vars, defs, header⟩) rank body s2 s' →
      Solves ctx rank (.letIn vars header defs body) s s'

variable {ctx : Context} {rank : Rank} {c : Constraint}

namespace Solver

variable {fuel : Nat} {ctx : Context} {st st' : Solver}

theorem errors_of_solve (h : Solver.solve fuel ctx c st = .done () st') (herr : st'.errors = []) :
    st.errors = [] := by
  obtain ⟨_, hsteps⟩ := Moment.steps_of_solve [] (fun _ => 0) h
  exact List.prefix_nil.mp (herr ▸ hsteps.errors)

theorem completes_of_equate {expected actual : Ty} {span : Span}
    (h : st.equate fuel expected actual span = .done () st') (herr : st'.errors = []) :
    Store.Completes (.types expected actual) st.store (.unified st'.store) ∧
      st'.rank = st.rank := by
  rcases equate_eq_done h with ⟨s, hrun, rfl⟩ | ⟨m, s, _, rfl⟩
  · exact ⟨Store.completes_of_unify hrun, rfl⟩
  · exact absurd herr (report_errors_ne _ m span)

theorem solves_of_solveAll {items : List Constraint}
    (ih : ∀ c ∈ items, ∀ st st', Solver.solve fuel ctx c st = .done () st' → st'.errors = [] →
      Solves ctx st.rank c st.store st'.store ∧ st'.rank = st.rank)
    (h : Solver.solveAll fuel ctx items st = .done () st') (herr : st'.errors = []) :
    Solves ctx st.rank (.conj items) st.store st'.store ∧ st'.rank = st.rank := by
  induction items generalizing st with
  | nil =>
    cases h
    exact ⟨.nil, rfl⟩
  | cons c cs ihcs =>
    obtain ⟨_, st1, hc, hcs⟩ := Run.andThen_eq_done h
    obtain ⟨hrest, hrank⟩ := ihcs (fun c hc => ih c (by simp [hc])) hcs
    have hconj : Solver.solve fuel ctx (.conj cs) st1 =
        .done () { st' with checkpoint := st1.checkpoint } := by
      rw [Solver.solve, hcs]
      rfl
    obtain ⟨hfirst, hrank1⟩ := ih c (by simp) st st1 hc (errors_of_solve hconj herr)
    rw [hrank1] at hrest hrank
    exact ⟨.cons hfirst hrest, hrank⟩

theorem solves_of_solve (h : Solver.solve fuel ctx c st = .done () st') (herr : st'.errors = []) :
    Solves ctx st.rank c st.store st'.store ∧ st'.rank = st.rank := by
  induction c generalizing ctx st st' with
  | trivial => cases h; exact ⟨.trivial, rfl⟩
  | checkpoint => cases h; exact ⟨.checkpoint, rfl⟩
  | equal =>
    obtain ⟨hrun, hrank⟩ := completes_of_equate h herr
    exact ⟨.equal hrun, hrank⟩
  | instanceOf =>
    obtain ⟨scheme, u, u', s, hget, htype, hinst, h⟩ := equateInstance_eq_done h
    obtain ⟨hrun, hrank⟩ := completes_of_equate h herr
    exact ⟨.instanceOf hget htype (Store.instantiated_of_eq hinst) hrun, hrank⟩
  | conj items ih =>
    obtain ⟨st1, hitems, rfl⟩ := Run.restore_eq_done h
    exact (solves_of_solveAll (fun c hc _ _ h herr => ih c hc h herr) hitems herr :)
  | letIn vars header defs body ihd ihb =>
    obtain ⟨st1, st2, hdefs, hbody, rfl⟩ := solve_letIn_eq_done h
    obtain ⟨hb, hrank⟩ := ihb hbody herr
    have herr1 : st1.errors = [] := (errors_of_solve hbody herr :)
    obtain ⟨hd, _⟩ := ihd hdefs herr1
    exact ⟨.letIn hd rfl hb, hrank⟩

end Solver

/-- The checkpoint after a constraint that was met at the checkpoint `saved`. -/
def Constraint.mark (saved : Option Span) : Constraint → Option Span
  | .checkpoint span => some span
  | _ => saved

theorem Solves.enoughFuel {s s' : Store} (h : Solves ctx rank c s s') (st : Solver)
    (hs : st.store = s) (hr : st.rank = rank) (hpos : 0 < rank) :
    EnoughFuel fun k => Solver.solve k ctx c st =
      .done () { st with store := s', checkpoint := c.mark st.checkpoint } := by
  induction h generalizing st with
  | trivial => subst hs; exact .intro fun k => by rfl
  | checkpoint => subst hs; exact .intro fun k => by rfl
  | equal h =>
    subst hs
    refine h.mono fun k hk => ?_
    rw [Solver.solve, Solver.equate]
    rw [Store.Call.run] at hk
    rw [hk]
    rfl
  | instanceOf hget htype hinst h =>
    subst hs hr
    refine (EnoughFuel.and hinst h).mono fun k hboth => ?_
    obtain ⟨hk, hk'⟩ := hboth
    rw [Store.Call.run] at hk'
    simp only [Solver.solve, Solver.equateInstance, hget, htype, hk, Solver.equate, hk']
    rfl
  | nil => subst hs; exact .intro fun k => by rfl
  | @cons ctx rank c cs s s1 s' _ _ ih ih' =>
    refine (EnoughFuel.and (ih st hs hr hpos) (ih'
      { st with store := s1, checkpoint := c.mark st.checkpoint } rfl hr hpos)).mono
      fun k hboth => ?_
    obtain ⟨hk, hk'⟩ := hboth
    rw [Solver.solve] at hk' ⊢
    obtain ⟨st2, hcs, heq⟩ := Run.restore_eq_done hk'
    rw [Solver.solveAll, hk, Run.andThen, hcs, Run.restore]
    cases st2
    cases heq
    rfl
  | @letIn ctx rank vars header defs body qs s s1 s2 s' _ hgen _ ih ih' =>
    subst hr
    refine (EnoughFuel.and (ih st.enter hs rfl (Nat.succ_pos _)) (ih'
      { st with store := s2 } rfl rfl hpos)).mono fun k hboth => ?_
    obtain ⟨hk, hk'⟩ := hboth
    rw [Solver.solve_letIn, hk, Solver.leave]
    simp only [hgen, if_neg (Nat.ne_of_gt hpos), Run.andThen]
    exact congrArg (Run.restore st.checkpoint) hk'

end TypeSolver
