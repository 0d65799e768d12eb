import TypeSolver.Proofs.Coverage
import TypeSolver.Proofs.Labels
import TypeSolver.Proofs.NodeTypes

/-!
# TypeSolver.Proofs.Elaboration

The groups of a program one after another. A run without errors solves each group inside its
boundary, gives its names their scheme and goes on with the next (`Elaborates`); with enough fuel,
such a sequence is a run. What the program has types for at the end are the schemes of its own names
(`Elaborates.find_topLevel`), and where these can be read the program gets types.
-/

namespace TypeSolver

namespace Context

/-- What a context knows of a name: its type, and what that is quantified over. -/
def find (ctx : Context) (name : String) : Option (List Var × Ty) :=
  (Assoc.get? ctx name).bind fun scheme =>
    (scheme.typeOf? name).map fun t => (scheme.quantifiers, t)

theorem find_eq_some {ctx : Context} {name : String} {qs : List Var} {t : Ty} :
    ctx.find name = some (qs, t) ↔ ∃ scheme, Assoc.get? ctx name = some scheme ∧
      scheme.typeOf? name = some t ∧ scheme.quantifiers = qs := by
  simp [find, Option.bind_eq_some_iff]

end Context

namespace Scheme

def solved (scheme : Scheme) (s : Store) : Scheme :=
  { scheme with quantifiers := (s.generalize scheme.header 0).1 }

def bind (scheme : Scheme) (s : Store) (ctx : Context) : Context :=
  Solver.bindNames ctx scheme.header (scheme.solved s)

variable {scheme : Scheme} {name : String}

theorem find_bind_of_mem (s : Store) (ctx : Context) (h : name ∈ Assoc.keys scheme.header) :
    ∃ t, Assoc.get? scheme.header name = some t ∧
      (scheme.bind s ctx).find name = some ((s.generalize scheme.header 0).1, t) := by
  cases ht : Assoc.get? scheme.header name with
  | none => exact absurd h (Assoc.get?_eq_none_iff.mp ht)
  | some t =>
    refine ⟨t, rfl, Context.find_eq_some.mpr ⟨scheme.solved s, ?_, ht, rfl⟩⟩
    rw [bind, Solver.get?_bindNames, if_pos h]

theorem find_bind_of_not_mem {s : Store} {ctx : Context} (h : name ∉ Assoc.keys scheme.header) :
    (scheme.bind s ctx).find name = ctx.find name := by
  rw [Context.find, bind, Solver.get?_bindNames, if_neg h, Context.find]

end Scheme

structure Stage where
  context : Context
  /-- The names of the groups that were solved. -/
  topLevel : Context
  store : Store

def Stage.after (g : Stage) (scheme : Scheme) (s : Store) : Stage :=
  ⟨scheme.bind s g.context, scheme.bind s g.topLevel, (s.generalize scheme.header 0).2⟩

/-- The groups can be solved one after another without an error. -/
inductive Elaborates : Stage → List Scheme → Stage → Prop where
  | nil {g : Stage} : Elaborates g [] g
  | cons {g g' : Stage} {scheme : Scheme} {schemes : List Scheme} {s : Store} :
      Solves g.context 1 scheme.qualifier g.store s → Elaborates (g.after scheme s) schemes g' →
      Elaborates g (scheme :: schemes) g'

namespace Elaborates

variable {g g1 g' : Stage} {schemes schemes' : List Scheme}

theorem append (h : Elaborates g schemes g1) (h' : Elaborates g1 schemes' g') :
    Elaborates g (schemes ++ schemes') g' := by
  induction h with
  | nil => exact h'
  | cons hsolves _ ih => exact .cons hsolves (ih h')

theorem of_append (h : Elaborates g (schemes ++ schemes') g') :
    ∃ g1, Elaborates g schemes g1 ∧ Elaborates g1 schemes' g' := by
  induction schemes generalizing g with
  | nil => exact ⟨g, .nil, h⟩
  | cons scheme schemes ih =>
    cases h with
    | cons hsolves h =>
      obtain ⟨g1, hfirst, hrest⟩ := ih h
      exact ⟨g1, .cons hsolves hfirst, hrest⟩

variable {name : String}

variable (h : Elaborates g schemes g')

include h

theorem find_context (hname : ∀ scheme ∈ schemes, name ∉ Assoc.keys scheme.header) :
    g'.context.find name = g.context.find name := by
  induction h with
  | nil => rfl
  | cons _ _ ih =>
    rw [ih fun scheme hs => hname scheme (.tail _ hs)]
    exact Scheme.find_bind_of_not_mem (hname _ (.head _))

theorem find_topLevel (name : String) :
    g'.topLevel.find name = if ∃ scheme ∈ schemes, name ∈ Assoc.keys scheme.header then
      g'.context.find name else g.topLevel.find name := by
  induction h with
  | nil => simp
  | @cons g g' scheme schemes s _ hrest ih =>
    rw [ih]
    by_cases hlater : ∃ scheme ∈ schemes, name ∈ Assoc.keys scheme.header
    · obtain ⟨later, hmem, hname⟩ := hlater
      rw [if_pos ⟨later, hmem, hname⟩, if_pos ⟨later, .tail _ hmem, hname⟩]
    · have hcontext := hrest.find_context fun later hmem hname => hlater ⟨later, hmem, hname⟩
      rw [if_neg hlater]
      by_cases hname : name ∈ Assoc.keys scheme.header
      · rw [if_pos ⟨scheme, .head _, hname⟩, hcontext]
        obtain ⟨t, ht, hfind⟩ := Scheme.find_bind_of_mem s g.topLevel hname
        obtain ⟨t', ht', hfind'⟩ := Scheme.find_bind_of_mem s g.context hname
        cases ht.symm.trans ht'
        exact hfind.trans hfind'.symm
      · rw [if_neg, Stage.after]
        · exact Scheme.find_bind_of_not_mem hname
        · rintro ⟨later, hmem, hlater'⟩
          rcases List.mem_cons.mp hmem with rfl | hmem
          · exact hname hlater'
          · exact hlater ⟨later, hmem, hlater'⟩

theorem exists_find {scheme : Scheme} (hs : scheme ∈ schemes)
    (hname : name ∈ Assoc.keys scheme.header) : ∃ qs t, g'.context.find name = some (qs, t) := by
  induction h generalizing scheme with
  | nil => cases hs
  | @cons g g' first schemes s _ hrest ih =>
    by_cases hlater : ∃ scheme ∈ schemes, name ∈ Assoc.keys scheme.header
    · obtain ⟨later, hmem, hlater⟩ := hlater
      exact ih hmem hlater
    · obtain rfl : scheme = first :=
        (List.mem_cons.mp hs).resolve_right fun hmem => hlater ⟨scheme, hmem, hname⟩
      obtain ⟨t, _, hfind⟩ := Scheme.find_bind_of_mem s g.context hname
      refine ⟨_, t, Eq.trans ?_ hfind⟩
      exact hrest.find_context fun later hmem hname => hlater ⟨later, hmem, hname⟩

theorem sorted (hg : Assoc.Sorted g.topLevel) : Assoc.Sorted g'.topLevel := by
  induction h with
  | nil => exact hg
  | cons _ _ ih => exact ih (Solver.sorted_bindNames hg _ _)

/-- With enough fuel, groups that can be solved are solved. -/
theorem enoughFuel (st : Solver) (hs : st.store = g.store) (htop : st.topLevel = g.topLevel)
    (hrank : st.rank = 0) :
    EnoughFuel fun k => Solver.solve k g.context (schemes.foldr Scheme.around .trivial) st =
      .done () { st with store := g'.store, topLevel := g'.topLevel } := by
  induction h generalizing st with
  | nil =>
    refine .intro fun k => ?_
    rw [List.foldr_nil, Solver.solve, ← hs, ← htop]
  | @cons g g' scheme schemes s hsolves _ ih =>
    have hdefs := hsolves.enoughFuel st.enter hs (by rw [Solver.enter, hrank]) Nat.one_pos
    have hrest := ih { st with
      store := (s.generalize scheme.header 0).2, topLevel := scheme.bind s g.topLevel } rfl rfl hrank
    cases st
    cases hs
    cases htop
    cases hrank
    refine (hdefs.and hrest).mono fun k hboth => ?_
    obtain ⟨hk, hk'⟩ := hboth
    rw [List.foldr_cons, Scheme.around, Solver.solve_letIn, hk, Solver.leave, Run.andThen,
      if_pos rfl]
    exact congrArg (Run.restore _) hk'

end Elaborates

variable {schemes : List Scheme} {top : Context} {bindings : List (String × Polytype)}

/-- A run without errors takes the groups one after another. -/
theorem Solver.elaborates_of_solve {fuel : Nat} {ctx : Context} {st st' : Solver}
    (h : Solver.solve fuel ctx (schemes.foldr Scheme.around .trivial) st = .done () st')
    (hrank : st.rank = 0) (herr : st'.errors = []) :
    ∃ ctx', Elaborates ⟨ctx, st.topLevel, st.store⟩ schemes ⟨ctx', st'.topLevel, st'.store⟩ := by
  induction schemes generalizing ctx st st' with
  | nil =>
    cases h
    exact ⟨ctx, .nil⟩
  | cons scheme schemes ih =>
    obtain ⟨st1, st2, hdefs, hbody, rfl⟩ := solve_letIn_eq_done h
    have herr1 : st1.errors = [] := (errors_of_solve hbody herr :)
    obtain ⟨hsolves, _⟩ := solves_of_solve hdefs herr1
    have htop : st1.topLevel = st.topLevel := (solve_returns hdefs).2 (Nat.succ_ne_zero _)
    obtain ⟨ctx', hrest⟩ := ih hbody hrank herr
    rw [Solver.enter, hrank] at hsolves
    refine ⟨ctx', .cons hsolves ?_⟩
    rw [left, if_pos hrank, htop, hrank] at hrest
    exact hrest

variable {s : Store} {fuel : Nat}

theorem sorted_typed (htop : Assoc.Sorted top) : Assoc.Sorted top.typed := by
  rw [Assoc.Sorted, Assoc.keys, List.pairwise_map] at htop ⊢
  refine List.pairwise_filterMap.mpr (htop.imp fun hlt e he e' he' => ?_)
  obtain ⟨_, _, rfl⟩ := Option.map_eq_some_iff.mp he
  obtain ⟨_, _, rfl⟩ := Option.map_eq_some_iff.mp he'
  exact hlt

theorem get?_typed (htop : Assoc.Sorted top) (name : String) :
    Assoc.get? top.typed name = top.find name := by
  refine Option.ext fun e => ⟨fun h => ?_, fun h => ?_⟩
  · obtain ⟨scheme, hmem, ht, hq⟩ := Context.mem_typed.mp (Assoc.mem_of_get? h)
    exact Context.find_eq_some.mpr ⟨scheme, Assoc.get?_of_mem htop hmem, ht, hq⟩
  · obtain ⟨scheme, hget, ht, hq⟩ := Context.find_eq_some.mp h
    exact Assoc.get?_of_mem (sorted_typed htop)
      (Context.mem_typed.mpr ⟨scheme, Assoc.mem_of_get? hget, ht, hq⟩)

theorem rel_of_readBindings (htop : Assoc.Sorted top)
    (h : readBindings s fuel top = some bindings) :
    Assoc.Sorted bindings ∧ ∀ name, Option.Rel (fun e p => s.polytype fuel e.1 e.2 = some p)
      (top.find name) (Assoc.get? bindings name) := by
  have hrel := readBindings_eq_some.mp h
  refine ⟨hrel.sorted_iff.mp (sorted_typed htop), fun name => ?_⟩
  rw [← get?_typed htop]
  exact hrel.get? name

theorem enoughFuel_readBindings (htop : Assoc.Sorted top)
    (h : ∀ name qs t, top.find name = some (qs, t) → s.Readable t) :
    EnoughFuel fun k => ∃ bindings, readBindings s k top = some bindings := by
  have hread : ∀ e ∈ top.typed, s.Readable e.2.2 := fun e he =>
    h e.1 e.2.1 e.2.2 (by rw [← get?_typed htop]; exact Assoc.get?_of_mem (sorted_typed htop) he)
  refine (EnoughFuel.forall_mem hread).mono fun k hk => ?_
  obtain ⟨bindings, hbindings⟩ := Assoc.exists_related
    (R := fun (e : List Var × Ty) p => s.polytype k e.1 e.2 = some p) fun e he => by
      obtain ⟨n, nm, hrun⟩ := hk e he { quantified := e.2.1.map s.root }
      exact ⟨⟨nm.order, n⟩, Option.map_eq_some_iff.mpr ⟨_, hrun, rfl⟩⟩
  exact ⟨bindings, readBindings_eq_some.mpr hbindings⟩

theorem enoughFuel_readNodeTypes {types : List (UInt32 × Ty)} (h : ∀ e ∈ types, s.Readable e.2) :
    EnoughFuel fun k => ∃ named, readNodeTypes s k types = some named := by
  refine (EnoughFuel.forall_mem h).mono fun k hk => ?_
  obtain ⟨named, nm, hthreads⟩ := exists_threads
    (f := fun e : UInt32 × Ty => do let u ← s.readType k e.2; pure (e.1, u)) (fun e he nm => by
      obtain ⟨u, nm', hrun⟩ := hk e he nm
      refine ⟨(e.1, u), nm', ?_⟩
      rw [StateT.run_bind, hrun]
      rfl) {}
  exact ⟨named, Option.map_eq_some_iff.mpr ⟨_, mapM_run_eq_some.mpr hthreads, rfl⟩⟩

theorem inferProgram_of_elaborates {program : Program} {env : Environment} {config : Config}
    {p : Prepared} (hp : Prepared.ofProgram program env = .ok p)
    (hc : p.constraint = schemes.foldr Scheme.around .trivial) {g : Stage}
    (h : Elaborates ⟨p.context, [], { p.store with compress := config.pathCompression }⟩ schemes g)
    (hs : g.store.FirstOrder) :
    EnoughFuel fun k => ∃ typed, inferProgram k program env config = some (.ok typed) ∧
      readBindings g.store k g.topLevel = some typed.bindings := by
  have hsolve := h.enoughFuel (.ofStore { p.store with compress := config.pathCompression }
    config.maxErrors) rfl rfl rfl
  have hread := hs.grounded.readable hs.toFormed hs.usable
  have hbindings := enoughFuel_readBindings (h.sorted Assoc.sorted_nil) fun _ _ t _ => hread t
  have hnodes := enoughFuel_readNodeTypes fun e (_ : e ∈ p.nodeTypes) => hread e.2
  refine (hsolve.and (hbindings.and hnodes)).mono fun k hall => ?_
  obtain ⟨hk, ⟨bindings, hb⟩, nodes, hn⟩ := hall
  refine ⟨⟨bindings, nodes⟩, ?_, hb⟩
  rw [← hc] at hk
  have hl := hs.forest.linksEnd
  obtain ⟨s', hb', h'⟩ := (Store.resolveBindings_finds .refl hl k g.topLevel).exists_eq hb
  have hn' := Store.resolveNodeTypes_eq h' hl k p.nodeTypes
  simp only [inferProgram, hp, Prepared.solve, hk]
  simp only [Solver.ofStore, List.isEmpty_nil, if_true, hb', hn', hn, Option.map_some]

end TypeSolver
