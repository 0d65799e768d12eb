import TypeSolver.Proofs.Compression
import TypeSolver.Proofs.Runs

/-!
# TypeSolver.Proofs.Quantifiers

What a group is quantified over. The search for quantifiers goes through the types of a header one
after the other and opens no root twice, so that it comes to an end on every store, whether or not
bindings run in a circle. It finds exactly the unbound roots above the outer rank that a type of the
header leads to (`mem_generalizable_iff`) and lists each once. The store is only read: which variables
are looked up on the way, and so which links are shortened, shows neither in the answer nor in what
the store says of a variable (`lookUp_agrees`).
-/

namespace TypeSolver

theorem pairwise_insertVar {v : Var} {vs : List Var} (h : vs.Pairwise (· < ·)) :
    (insertVar v vs).Pairwise (· < ·) := by
  induction vs with
  | nil => simp [insertVar]
  | cons w ws ih =>
    obtain ⟨hw, hws⟩ := List.pairwise_cons.mp h
    rw [insertVar]
    split
    · rename_i hlt
      refine List.pairwise_cons.mpr ⟨fun x hx => ?_, h⟩
      rcases List.mem_cons.mp hx with rfl | hx
      · exact hlt
      · exact hlt.trans (hw x hx)
    · rename_i hge
      split
      · exact h
      · rename_i hne
        refine List.pairwise_cons.mpr ⟨fun x hx => ?_, ih hws⟩
        rcases mem_insertVar.mp hx with rfl | hx
        · exact Nat.lt_of_le_of_ne (Nat.le_of_not_lt hge) (Ne.symm hne)
        · exact hw x hx

theorem pairwise_sortVars (vs : List Var) : (sortVars vs).Pairwise (· < ·) := by
  suffices ∀ acc : List Var, acc.Pairwise (· < ·) →
      (vs.foldl (fun acc v => insertVar v acc) acc).Pairwise (· < ·) from this [] .nil
  induction vs with
  | nil => exact fun _ h => h
  | cons v vs ih => exact fun acc h => ih _ (pairwise_insertVar h)

namespace Store

variable {s : Store} {header : Header} {outer : Rank}

theorem isInside_iff {r : Var} :
    s.isInside outer r = true ↔ ∃ k, s.rank? r = some k ∧ outer < k := by
  rw [isInside]
  cases s.rank? r <;> simp

theorem foldl_reachFrom (header : Header) : (Assoc.values header).foldl s.reachFrom [] =
    ((Assoc.values header).flatMap Ty.vars).foldl (s.visit s.size) [] := by
  rw [List.foldl_flatMap]
  rfl

theorem mem_flatMap_vars {v : Var} :
    v ∈ (Assoc.values header).flatMap Ty.vars ↔ ∃ e ∈ header, v ∈ e.2.vars := by
  rw [Assoc.values, List.flatMap_map, List.mem_flatMap]

theorem mem_generalizable_iff (hf : s.Forest) (hs : s.Contained)
    (hlt : ∀ e ∈ header, ∀ v ∈ e.2.vars, v < s.size) {r : Var} :
    r ∈ s.generalizable header outer ↔
      (∃ e ∈ header, ∃ v ∈ e.2.vars, s.Reaches v r) ∧ ∃ k, s.rank? r = some k ∧ outer < k := by
  have hvars : ∀ v ∈ (Assoc.values header).flatMap Ty.vars, v < s.size := fun v hv => by
    obtain ⟨e, he, hv⟩ := mem_flatMap_vars.mp hv
    exact hlt e he v hv
  rw [generalizable, mem_sortVars, List.mem_filter, isInside_iff, foldl_reachFrom,
    hs.closed.mem_foldl_visit hf hvars]
  refine and_congr_left fun _ => ⟨?_, ?_⟩
  · rintro ⟨v, hv, hr⟩
    obtain ⟨e, he, hv⟩ := mem_flatMap_vars.mp hv
    exact ⟨e, he, v, hv, hr⟩
  · rintro ⟨e, he, v, hv, hr⟩
    exact ⟨v, mem_flatMap_vars.mpr ⟨e, he, hv⟩, hr⟩

/-- The store after the variables were looked up one after the other. -/
def lookUp (s : Store) (vs : List Var) : Store := vs.foldl (fun s v => (s.find v).2) s

theorem lookUp_relinked (s : Store) (vs : List Var) : Relinked s (s.lookUp vs) := by
  induction vs generalizing s with
  | nil => exact .refl
  | cons v vs ih => exact (Relinked.single s v).trans (ih _)

end Store

namespace Solver

/-- A group that is left gets its scheme, whatever the bindings of the store are, circles among them.
The scheme is quantified over the roots that are unbound, have a rank above the outer one and can be
reached from a type of the header through links, bindings and extensions of records; they are listed
in order and once each. No variable has another representative, content or rank afterwards, and this
is so whichever variables are looked up on the way. -/
theorem leave_quantifies {st : Solver} (hf : st.store.Forest) (hs : st.store.Contained)
    {header : Header} (hheader : ∀ e ∈ header, e.2.Below st.store.size) (ctx : Context)
    (outer : Rank) (vars : List Var) (defs : Constraint) (looked : List Var) :
    ∃ quantifiers st',
      leave ctx outer vars header defs (.done () { st with store := st.store.lookUp looked }) =
        .done (bindNames ctx header ⟨quantifiers, vars, defs, header⟩) st' ∧
      (∀ u, u ∈ quantifiers ↔ st.store.root u = u ∧
        (∃ rank hint, st.store.content u = .unbound rank hint ∧ outer < rank) ∧
        ∃ e ∈ header, ∃ v ∈ e.2.vars, st.store.Reaches v u) ∧
      quantifiers.Pairwise (· < ·) ∧
      ∀ v, st'.store.root v = st.store.root v ∧ st'.store.content v = st.store.content v ∧
        st'.store.rank? v = st.store.rank? v := by
  have hlooked := Store.lookUp_relinked st.store looked
  have hsame := hlooked.agrees hf.linksEnd
  obtain ⟨s', hgen, hs'⟩ := Store.generalize_eq hsame.linksEnd header outer
  have hleft := (hlooked.trans hs').agrees hf.linksEnd
  refine ⟨(st.store.lookUp looked).generalizable header outer, _, by rw [leave, hgen],
    fun u => ?_, pairwise_sortVars _, fun v => ⟨congrFun hleft.root v, congrFun hleft.content v,
      congrFun hleft.rank? v⟩⟩
  have hrank : (∃ k, st.store.rank? u = some k ∧ outer < k) ↔
      ∃ rank hint, st.store.content u = .unbound rank hint ∧ outer < rank := by
    rw [Store.rank?]
    cases st.store.content u <;> simp
  rw [hsame.generalizable, Store.mem_generalizable_iff hf hs hheader, hrank]
  constructor
  · rintro ⟨⟨e, he, v, hv, hr⟩, hu⟩
    exact ⟨hr.root_eq hf, hu, e, he, v, hv, hr⟩
  · rintro ⟨_, hu, hr⟩
    exact ⟨hr, hu⟩

/-- The first variable stands for a record that has the variable itself in a field and is open at the
second; the third has the rank of the scope around. -/
def knot : Store :=
  (((Store.blank [] 1).fresh 2 none).2.fresh 1 none).2.put 0
    (.bound (.record [("next", .var 2), ("self", .var 0)] (some 1)))

theorem knot_formed : knot.Formed := by
  refine Store.put_formed (Store.fresh_formed (Store.fresh_formed (Store.formed_blank [] 1) _ _) _ _)
    (by decide) (by decide) fun t ht => ?_
  cases ht
  have hsorted : Assoc.Sorted [("next", Ty.var 2), ("self", Ty.var 0)] := by
    simp only [Assoc.Sorted]; decide
  simp [Ty.Fits, Ty.over_record, Ty.over_var, Store.fresh_size, (Store.blank_view [] 1).2.1, hsorted]

theorem knot_edge : ∀ v < 3, knot.Edge 0 v := fun v hv =>
  ⟨.record [("next", .var 2), ("self", .var 0)] (some 1), rfl, v, by
    decide +revert, by decide +revert⟩

/-- Of the three variables that the type leads to, the second alone is above the outer rank. -/
theorem leave_quantifies_knot : ¬ knot.Acyclic ∧ ∃ q st',
    leave [] 1 [0] [("f", .list (.var 0))] .trivial
        (.done () { Solver.ofStore knot none with store := knot.lookUp [0, 1] }) =
      .done (bindNames [] [("f", .list (.var 0))] ⟨q, [0], .trivial, [("f", .list (.var 0))]⟩) st' ∧
    1 ∈ q ∧ 0 ∉ q ∧ 2 ∉ q ∧ st'.store.root 1 = 1 := by
  refine ⟨fun h => h 0 (.single (knot_edge 0 (by decide))), ?_⟩
  obtain ⟨q, st', hq, hmem, _, hsame⟩ := @leave_quantifies (.ofStore knot none) knot_formed.forest
    knot_formed.contained [("f", .list (.var 0))] (by simp only [List.forall_mem_singleton]; decide)
    [] 1 [0] .trivial [0, 1]
  refine ⟨q, st', hq, (hmem 1).mpr ⟨rfl, ⟨2, none, rfl, by decide⟩, _, .head _, 0, by decide,
    .single (knot_edge 1 (by decide))⟩, fun h0 => ?_, fun h2 => ?_, (hsame 1).1⟩
  · obtain ⟨_, ⟨_, _, hc, _⟩, _⟩ := (hmem 0).mp h0
    cases hc
  · obtain ⟨_, ⟨_, _, hc, hlt⟩, _⟩ := (hmem 2).mp h2
    cases hc
    exact absurd hlt (by decide)

end Solver
end TypeSolver
