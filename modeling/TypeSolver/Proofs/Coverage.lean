import Mathlib
import TypeSolver.Proofs.Compression
import TypeSolver.Proofs.NodeTypes
import TypeSolver.Proofs.Reading

/-!
# TypeSolver.Proofs.Coverage

What a typed program has types for. The walk over a program notes a type for each expression, and
the solver keeps the schemes of a group if it comes back to rank 0 when it leaves the group; this
happens at the groups of the program and nowhere inside them (`Solver.topLevel_of_solve`).
-/

namespace TypeSolver

namespace Solver

variable {fuel : Nat} {ctx : Context} {st st' : Solver}

def Returns (st st' : Solver) : Prop :=
  st'.rank = st.rank ∧ (st.rank ≠ 0 → st'.topLevel = st.topLevel)

theorem Returns.trans {st'' : Solver} (h : st.Returns st') (h' : st'.Returns st'') :
    st.Returns st'' :=
  ⟨h'.1.trans h.1, fun hne => (h'.2 (h.1 ▸ hne)).trans (h.2 hne)⟩

theorem equate_returns {expected actual : Ty} {span : Span}
    (h : st.equate fuel expected actual span = .done () st') : st.Returns st' :=
  ⟨rank_of_equate h, fun _ => topLevel_of_equate h⟩

theorem solve_returns {c : Constraint} (h : solve fuel ctx c st = .done () st') :
    st.Returns st' := by
  induction c generalizing ctx st st' with
  | trivial => cases h; exact ⟨rfl, fun _ => rfl⟩
  | checkpoint span => cases h; exact ⟨rfl, fun _ => rfl⟩
  | equal expected actual span => exact equate_returns h
  | instanceOf name t span =>
    obtain ⟨_, _, _, s, _, _, _, h⟩ := equateInstance_eq_done h
    exact (equate_returns h :)
  | conj items ih =>
    obtain ⟨st1, hitems, rfl⟩ := Run.restore_eq_done h
    clear h
    induction items generalizing st with
    | nil => cases hitems; exact ⟨rfl, fun _ => rfl⟩
    | cons c cs ihcs =>
      obtain ⟨_, st2, hc, hcs⟩ := Run.andThen_eq_done hitems
      exact (ih c (by simp) hc).trans (ihcs (fun d hd => ih d (by simp [hd])) hcs)
  | letIn vars header defs body ihd ihb =>
    obtain ⟨st1, st2, hdefs, hbody, rfl⟩ := solve_letIn_eq_done h
    obtain ⟨hrank, htop⟩ := ihb hbody
    refine ⟨hrank, fun hne => (htop hne).trans ?_⟩
    rw [left, if_neg hne]
    exact (ihd hdefs).2 (Nat.succ_ne_zero _)

theorem sorted_bindNames (h : Assoc.Sorted ctx) (header : Header) (scheme : Scheme) :
    Assoc.Sorted (bindNames ctx header scheme) := by
  rw [bindNames]
  generalize Assoc.keys header = names
  induction names generalizing ctx with
  | nil => exact h
  | cons name names ih => exact ih (Assoc.sorted_insert h name scheme)

theorem topLevel_of_solve {schemes : List Scheme}
    (h : solve fuel ctx (schemes.foldr Scheme.around .trivial) st = .done () st')
    (hrank : st.rank = 0) {names : List String} (hsorted : Assoc.Sorted st.topLevel)
    (hcovers : Covers st.topLevel names) : Assoc.Sorted st'.topLevel ∧
      Covers st'.topLevel (schemes.flatMap (fun scheme => Assoc.keys scheme.header) ++ names) := by
  induction schemes generalizing ctx st st' names with
  | nil =>
    cases h
    exact ⟨hsorted, hcovers⟩
  | cons scheme schemes ih =>
    obtain ⟨st1, st2, hdefs, hbody, rfl⟩ := solve_letIn_eq_done h
    have htop : st1.topLevel = st.topLevel := (solve_returns hdefs).2 (Nat.succ_ne_zero _)
    let group := st1.schemeAt st.rank scheme.candidates scheme.header scheme.qualifier
    have hleft : (st1.left st.rank scheme.candidates scheme.header scheme.qualifier
        st.checkpoint).topLevel = bindNames st.topLevel scheme.header group := by
      rw [left, if_pos hrank, htop]
    have hbound : Covers (bindNames st.topLevel scheme.header group) _ := hcovers.bindNames rfl
    obtain ⟨hsorted', hcovers'⟩ := ih hbody hrank
      (hleft ▸ sorted_bindNames hsorted scheme.header group) (hleft ▸ hbound)
    refine ⟨hsorted', hcovers'.congr fun name => ?_⟩
    simp only [List.flatMap_cons, List.mem_append, or_assoc, or_left_comm]

end Solver

variable {s : Store} {fuel : Nat}

theorem keys_readNodeTypes {types : List (UInt32 × Ty)} {named : List (UInt32 × NamedType)}
    (h : readNodeTypes s fuel types = some named) : Assoc.keys named = Assoc.keys types := by
  obtain ⟨⟨named, nm⟩, hrun, rfl⟩ := Option.map_eq_some_iff.mp h
  have hall := ((mapM_run_eq_some.mp hrun).forall₂ (I := fun _ => True)
    (R := fun e e' => e'.1 = e.1) (fun e he nm e' nm' _ hrun => ⟨.intro, by
      obtain ⟨_, hn, heq⟩ := Option.bind_eq_some_iff.mp hrun
      cases heq
      rfl⟩) .intro).2
  have hkeys : List.Forall₂ Eq (Assoc.keys types) (Assoc.keys named) := by
    rw [Assoc.keys, Assoc.keys, List.forall₂_map_left_iff, List.forall₂_map_right_iff]
    exact hall.imp fun _ _ h => h.symm
  rw [List.forall₂_eq_eq_eq] at hkeys
  exact hkeys.symm

/-- If a program gets types, then the names that it has types for are those of its definitions in
its own groups, and the expressions are all expressions in it. -/
theorem inferProgram_covers {fuel : Nat} {program : Program} {env : Environment} {config : Config}
    {typed : TypedProgram} (h : inferProgram fuel program env config = some (.ok typed)) :
    (∀ name, name ∈ Assoc.keys typed.bindings ↔ ∃ g ∈ program.groups, ∃ d ∈ g.defs, d.name = name) ∧
    ∀ id, id ∈ Assoc.keys typed.nodeTypes ↔ ∃ e ∈ program.nodes, e.id = id := by
  obtain ⟨p, st, hp, hsolve, -, hbindings, hnodes⟩ := inferProgram_eq_ok h
  obtain ⟨_, _, _, c, g, _, _, hprogram, rfl⟩ := Prepared.ofProgram_eq_ok hp
  obtain ⟨schemes, g1, hgroups, hpure⟩ := Generate.bind_eq_ok hprogram
  obtain ⟨rfl, rfl⟩ := Generate.pure_eq_ok hpure
  obtain ⟨hvisited, hheaders⟩ := Generate.groups_visits program.groups _ _ _ hgroups
  have hnone : Solver.Covers [] [] := fun name => by simp [Assoc.get?]
  obtain ⟨hsorted, hcovers⟩ := Solver.topLevel_of_solve hsolve rfl Assoc.sorted_nil hnone
  refine ⟨fun name => ?_, fun id => ?_⟩
  · have hget : ∀ scheme,
        (name, scheme) ∈ st.topLevel ↔ Assoc.get? st.topLevel name = some scheme :=
      fun _ => ⟨Assoc.get?_of_mem hsorted, Assoc.mem_of_get?⟩
    calc name ∈ Assoc.keys typed.bindings
      _ ↔ ∃ scheme t, (name, scheme) ∈ st.topLevel ∧ scheme.typeOf? name = some t :=
        mem_keys_readBindings hbindings
      _ ↔ ∃ scheme t, Assoc.get? st.topLevel name = some scheme ∧ scheme.typeOf? name = some t := by
        simp only [hget]
      _ ↔ ∃ scheme ∈ schemes, name ∈ Assoc.keys scheme.header := by
        rw [← hcovers name, List.append_nil, List.mem_flatMap]
      _ ↔ ∃ g ∈ program.groups, ∃ d ∈ g.defs, d.name = name := by
        constructor
        · rintro ⟨scheme, hmem, hname⟩
          obtain ⟨group, hgroup, hiff⟩ := exists_of_forall₂_right hheaders hmem
          exact ⟨group, hgroup, List.mem_map.mp ((hiff name).mp hname)⟩
        · rintro ⟨group, hgroup, hdef⟩
          obtain ⟨scheme, hmem, hiff⟩ := exists_of_forall₂_left hheaders hgroup
          exact ⟨scheme, hmem, (hiff name).mpr (List.mem_map.mpr hdef)⟩
  · rw [keys_readNodeTypes hnodes, hvisited id]
    exact or_iff_right List.not_mem_nil

/-- A definition with a parameter and a local definition, and a branch on a record. -/
def nestedNames : Program where
  groups := [
    ⟨[{ name := "f", params := [⟨{}, .var "x"⟩], span := {},
        body := ⟨7, {}, .letIn
          [{ name := "local", params := [], span := {}, body := ⟨3, {}, .var "x"⟩ }]
          ⟨9, {}, .list [⟨1, {}, .var "local"⟩]⟩⟩ }]⟩,
    ⟨[{ name := "g", params := [], span := {},
        body := ⟨4, {}, .case ⟨5, {}, .record [⟨"y", ⟨6, {}, .literal (.int 1)⟩⟩]⟩
          [⟨⟨{}, .record ["y"]⟩, ⟨8, {}, .apply ⟨2, {}, .var "f"⟩ [⟨0, {}, .var "y"⟩]⟩, {}⟩]⟩ }]⟩]

/-- Only `f` and `g` are bound at the outside, and all ten expressions have types. -/
theorem inferProgram_covers_nestedNames : ∃ typed,
    inferProgram 30 nestedNames {} {} = some (.ok typed) ∧
    (∀ name, name ∈ Assoc.keys typed.bindings ↔ name = "f" ∨ name = "g") ∧
    ∀ id, id ∈ Assoc.keys typed.nodeTypes ↔ id ∈ [7, 3, 9, 1, 4, 5, 6, 8, 2, (0 : UInt32)] := by
  obtain ⟨typed, htyped⟩ : ∃ typed, inferProgram 30 nestedNames {} {} = some (.ok typed) := by
    generalize hrun : inferProgram 30 nestedNames {} {} = r
    cbv at hrun
    exact ⟨_, hrun.symm⟩
  obtain ⟨hbindings, hnodes⟩ := inferProgram_covers htyped
  refine ⟨typed, htyped, fun name => (hbindings name).trans ?_, fun id => (hnodes id).trans ?_⟩
  · simp [nestedNames, eq_comm]
  · have hids : nestedNames.nodes.map Expr.id = [7, 3, 9, 1, 4, 5, 6, 8, 2, 0] := rfl
    rw [← hids, List.mem_map]

end TypeSolver
