import TypeSolver.Proofs.Mirrors
import TypeSolver.Solver

/-!
# TypeSolver.Proofs.Independence

Demands that share no variable do not get in each other's way. While such demands are solved one
after the other, what belongs to a demand still to come stands as it stood in the first store
(`Undisturbed`), so the demand is met, or fails, as it would there: the run is mirrored by a run from
the first store in which new variables have other names (`Chain.mirrors`). A conjunction of
independent demands therefore records the errors that its parts record alone, in order
(`Solver.solve_conj_independent`).
-/

namespace TypeSolver

/-- Two types that have to be equal, and the place in the program that asks for it. -/
structure Demand where
  expected : Ty
  actual : Ty
  span : Span

namespace Demand

def constraint (d : Demand) : Constraint := .equal d.expected d.actual d.span

def vars (d : Demand) : List Var := d.expected.vars ++ d.actual.vars

/-- The demand leads to the root `r` through links and bindings. -/
def Reaches (d : Demand) (s : Store) (r : Var) : Prop := ∃ v ∈ d.vars, s.Reaches v r

/-- There is no variable that both demands lead to. -/
def Independent (s : Store) (d d' : Demand) : Prop := ∀ r, d.Reaches s r → ¬ d'.Reaches s r

def Owns (d : Demand) (s : Store) (v : Var) : Prop := v < s.size ∧ d.Reaches s (s.root v)

/-- What the demand owns, and the variables that are made when it is solved. -/
def Uses (d : Demand) (s : Store) (v : Var) : Prop := d.Owns s v ∨ s.size ≤ v

end Demand

namespace Store

variable {s t t' : Store} {d d' : Demand} {ds : List Demand}

/-- What a demand leads to can be searched. -/
theorem demand_reaches_iff (hf : s.Forest) (hs : s.Contained) (hd : ∀ v ∈ d.vars, v < s.size)
    {r : Var} : d.Reaches s r ↔ r ∈ s.reach (.func d.expected d.actual) :=
  (hs.closed.mem_foldl_visit hf hd).symm

theorem independent_iff (hf : s.Forest) (hs : s.Contained) (hd : ∀ v ∈ d.vars, v < s.size)
    (hd' : ∀ v ∈ d'.vars, v < s.size) : d.Independent s d' ↔
      ∀ r ∈ s.reach (.func d.expected d.actual), r ∉ s.reach (.func d'.expected d'.actual) := by
  simp only [Demand.Independent, demand_reaches_iff hf hs hd, demand_reaches_iff hf hs hd']

/-- What belongs to the demand stands in `t` as it stands in `s`, and nothing joined it. -/
structure Undisturbed (s t : Store) (d : Demand) : Prop where
  root : ∀ v, d.Owns s v → t.root v = s.root v
  content : ∀ v, d.Owns s v → t.content v = s.content v
  joined : ∀ v, d.Owns s (t.root v) → d.Owns s v

/-- The store `t` comes from `s` by solving demands that have nothing to do with `ds`. -/
structure Chain (s t : Store) (ds : List Demand) : Prop where
  forest : s.Forest
  contained : s.Contained
  forest' : t.Forest
  aliases : t.aliases = s.aliases
  size_le : s.size ≤ t.size
  undisturbed : ∀ d ∈ ds, Undisturbed s t d

theorem Chain.refl (hf : s.Forest) (hs : s.Contained) (ds : List Demand) : Chain s s ds :=
  ⟨hf, hs, hf, rfl, le_rfl, fun d _ => ⟨fun _ _ => rfl, fun _ _ => rfl, fun v hv =>
    have hlt : v < s.size := by
      by_contra hge
      have heq := (Forest.root_of_size_le (Nat.le_of_not_lt hge)).1
      exact hge (heq ▸ hv.1)
    ⟨hlt, hf.root_root v ▸ hv.2⟩⟩⟩

/-- A variable of `s` is called as it was, and those made later are numbered on from `n`. -/
def shift (s : Store) (n : Nat) (v : Var) : Var := if v < s.size then v else n + (v - s.size)

variable {n : Nat} {v : Var}

theorem shift_of_lt (h : v < s.size) : s.shift n v = v := if_pos h

theorem shift_size_add (n k : Nat) : s.shift n (s.size + k) = n + k := by
  rw [shift, if_neg (Nat.not_lt.mpr (Nat.le_add_right ..)), Nat.add_sub_cancel_left]

theorem le_shift (h : s.size ≤ v) : n ≤ s.shift n v := by
  obtain ⟨k, rfl⟩ := Nat.exists_eq_add_of_le h
  rw [shift_size_add]
  exact Nat.le_add_right n k

theorem shift_renamed {u : Ty} (hu : u.Below s.size) : u.renamed (s.shift n) = u :=
  Ty.renamed_eq_self fun v hv => shift_of_lt (hu v hv)

theorem owns_root (hf : s.Forest) (hv : d.Owns s v) : d.Owns s (s.root v) :=
  ⟨hf.root_lt hv.1, (hf.root_root v).symm ▸ hv.2⟩

theorem owns_vars (hf : s.Forest) (hs : s.Contained) {w : Var} {u : Ty} (hv : d.Owns s v)
    (hu : s.kind v = .bound u) (hw : w ∈ u.vars) : d.Owns s w := by
  obtain ⟨x, hx, hr⟩ := hv.2
  exact ⟨hs v u hu w hw, x, hx, .tail hr ((edge_root hf).mpr ⟨u, hu, w, hw, rfl⟩)⟩

namespace Chain

theorem mirrors (h : Chain s t ds) (hd : Undisturbed s t d) :
    Mirrors (d.Uses s) (s.shift t.size) t s t where
  forest := h.forest
  forest' := h.forest'
  aliases := h.aliases
  next k := shift_size_add t.size k
  later v hv := .inr hv
  injective v w hv hw heq := by
    rcases hv with hv | hv <;> rcases hw with hw | hw
    · rwa [shift_of_lt hv.1, shift_of_lt hw.1] at heq
    · rw [shift_of_lt hv.1] at heq
      exact absurd (h.size_le.trans (heq ▸ le_shift hw)) hv.1.not_ge
    · rw [shift_of_lt hw.1] at heq
      exact absurd (h.size_le.trans (heq ▸ le_shift hv)) hw.1.not_ge
    · obtain ⟨k, rfl⟩ := Nat.exists_eq_add_of_le hv
      obtain ⟨k', rfl⟩ := Nat.exists_eq_add_of_le hw
      rw [shift_size_add, shift_size_add] at heq
      rw [Nat.add_left_cancel heq]
  lt v hv := by
    rw [shift_of_lt hv.2]
    exact hv.2.trans_le h.size_le
  ownRoot v hv := by
    rcases hv with hv | hv
    · exact .inl (owns_root h.forest hv)
    · exact .inr (by rw [(Forest.root_of_size_le hv).1]; exact hv)
  root v hv := by
    rcases hv with hv | hv
    · rw [shift_of_lt hv.1, shift_of_lt (h.forest.root_lt hv.1), hd.root v hv]
    · rw [(Forest.root_of_size_le hv).1, (Forest.root_of_size_le (le_shift hv)).1]
  content v hv := by
    rcases hv with hv | hv
    · rw [shift_of_lt hv.1, hd.content v hv, Content.renamed_eq_self fun u hu w hw => ?_]
      exact shift_of_lt (h.contained v u (kind_eq_bound.mpr hu) w hw)
    · rw [(Forest.root_of_size_le hv).2, (Forest.root_of_size_le (le_shift hv)).2]
      rfl
  within v u hv hu w hw := by
    rcases hv with hv | hv
    · have hw := owns_vars h.forest h.contained hv (kind_eq_bound.mpr hu) hw
      exact ⟨.inl hw, hw.1⟩
    · rw [(Forest.root_of_size_le hv).2] at hu
      cases hu
  apart w hw v hv heq := by
    rcases hv with hv | hv
    · -- the class of `v` has only variables of the demand
      rw [shift_of_lt hv.1] at heq
      have hown := hd.joined w (heq ▸ hv)
      exact hw w (.inl hown) (shift_of_lt hown.1)
    · have hge : t.size ≤ w := by
        by_contra hlt
        have hroot := h.forest'.root_lt (Nat.lt_of_not_le hlt)
        exact absurd (heq ▸ le_shift hv) hroot.not_ge
      exact hw v (.inr hv) (heq.trans (Forest.root_of_size_le hge).1)
  kept w _ := ⟨rfl, rfl⟩
  keptAliases := rfl
  grown := le_rfl

theorem undisturbed_of_mirrors (h : Chain s t ds) (hd : Undisturbed s t d')
    (hind : d.Independent s d') {s' : Store}
    (hrun : Mirrors (d.Uses s) (s.shift t.size) t s' t') : Undisturbed s t' d' := by
  have houtside : ∀ w, d'.Owns s w → Outside (d.Uses s) (s.shift t.size) w := by
    rintro w hw v (hv | hv) heq
    · rw [shift_of_lt hv.1] at heq
      exact hind _ hv.2 (heq ▸ hw.2)
    · exact absurd (h.size_le.trans (heq ▸ le_shift hv)) hw.1.not_ge
  refine ⟨fun w hw => ?_, fun w hw => ?_, fun w hw => ?_⟩
  · rw [(hrun.kept w (houtside w hw)).1, hd.root w hw]
  · rw [(hrun.kept w (houtside w hw)).2, hd.content w hw]
  · have hw' : Outside (d.Uses s) (s.shift t.size) w := by
      rintro v hv rfl
      refine houtside _ hw (s'.root v) (hrun.ownRoot v hv) (hrun.root v hv).symm
    rw [(hrun.kept w hw').1] at hw
    exact hd.joined w hw

theorem next (h : Chain s t (d :: ds)) (hind : ∀ d' ∈ ds, d.Independent s d') {s' : Store}
    (hrun : Mirrors (d.Uses s) (s.shift t.size) t s' t') : Chain s t' ds :=
  ⟨h.forest, h.contained, hrun.forest', hrun.keptAliases.trans h.aliases,
    h.size_le.trans hrun.grown, fun d' hd' =>
      h.undisturbed_of_mirrors (h.undisturbed d' (List.mem_cons_of_mem d hd')) (hind d' hd') hrun⟩

theorem unify (h : Chain s t (d :: ds)) (hl : d.expected.Below s.size)
    (hr : d.actual.Below s.size) (fuel : Nat) :
    Outcome.Mirrors (d.Uses s) (s.shift t.size) t s.size
      (unify fuel d.expected d.actual s) (unify fuel d.expected d.actual t) := by
  have hmirrors := h.mirrors (h.undisturbed d (.head _))
  have hrun := (Mirrors.lockstep _ _ _).run hmirrors fuel (.types d.expected d.actual)
    ⟨fun v hv => ⟨.inl ⟨hl v hv, v, List.mem_append_left _ hv, .refl⟩, hl v hv⟩,
      fun v hv => ⟨.inl ⟨hr v hv, v, List.mem_append_right _ hv, .refl⟩, hr v hv⟩⟩
  simpa only [Call.run, Call.renamed, shift_renamed hl, shift_renamed hr] using hrun

end Chain
end Store

/-- The errors are of one kind and about the same place. -/
structure TypeError.SameFault (e e' : TypeError) : Prop where
  fault : e'.mismatch.fault = e.mismatch.fault
  span : e'.span = e.span
  checkpoint : e'.checkpoint = e.checkpoint

theorem TypeError.places_eq {es es' : List TypeError} (h : List.Forall₂ SameFault es es') :
    es'.map (fun e => (e.mismatch.fault, e.span)) = es.map fun e => (e.mismatch.fault, e.span) := by
  induction h with
  | nil => rfl
  | cons h _ ih => simp only [List.map_cons, ih, h.fault, h.span]

namespace Solver

/-- The error that the demand meets when it is solved alone, if it meets one. -/
def errorOf (st : Solver) (fuel : Nat) (d : Demand) : Option TypeError :=
  match Store.unify fuel d.expected d.actual st.store with
  | .failed m _ => some ⟨m, d.span, st.checkpoint⟩
  | _ => none

/-- Whether the fuel suffices to solve the demand alone. -/
def Decides (st : Solver) (fuel : Nat) (d : Demand) : Prop :=
  Store.unify fuel d.expected d.actual st.store ≠ .outOfFuel

variable {fuel : Nat} {ctx : Context} {st st' : Solver} {d : Demand} {ds : List Demand}

theorem report_of_uncapped (st : Solver) (h : st.maxErrors = none) (m : Mismatch) (span : Span) :
    st.report m span = { st with errors := st.errors ++ [⟨m, span, st.checkpoint⟩] } := by
  rw [report, isFull, h]
  rfl

theorem solve_demand_iff :
    (∃ sd, solve fuel ctx d.constraint st = .done () sd) ↔ st.Decides fuel d := by
  rw [Demand.constraint, solve, equate, Decides]
  cases Store.unify fuel d.expected d.actual st.store <;> simp

theorem errors_of_solve_demand (hcap : st.maxErrors = none) {sd : Solver}
    (h : solve fuel ctx d.constraint st = .done () sd) :
    sd.errors = st.errors ++ (st.errorOf fuel d).toList := by
  rw [Demand.constraint, solve, equate] at h
  rw [errorOf]
  cases hu : Store.unify fuel d.expected d.actual st.store with
  | outOfFuel => rw [hu] at h; cases h
  | unified s => rw [hu] at h; cases h; simp
  | failed m s =>
    rw [hu] at h
    cases h
    exact congrArg errors (report_of_uncapped { st with store := s } hcap m d.span)

theorem solveAll_chain (fuel : Nat) (ctx : Context) {cur : Solver} (hchain : Store.Chain st.store cur.store ds)
    (hcap : cur.maxErrors = none) (hcheckpoint : cur.checkpoint = st.checkpoint)
    (hbelow : ∀ d ∈ ds, d.expected.Below st.store.size ∧ d.actual.Below st.store.size)
    (hind : ds.Pairwise (Demand.Independent st.store)) :
    ((∃ last, solveAll fuel ctx (ds.map Demand.constraint) cur = .done () last) ↔
      ∀ d ∈ ds, st.Decides fuel d) ∧
    ∀ last, solveAll fuel ctx (ds.map Demand.constraint) cur = .done () last →
      ∃ new, last.errors = cur.errors ++ new ∧
        List.Forall₂ TypeError.SameFault (ds.filterMap (st.errorOf fuel)) new := by
  induction ds generalizing cur with
  | nil =>
    rw [List.map_nil, solveAll]
    exact ⟨by simp, by rintro _ ⟨⟩; exact ⟨[], by simp, .nil⟩⟩
  | cons d ds ih =>
    obtain ⟨hfirst, hrest⟩ := List.pairwise_cons.mp hind
    have hd := hbelow d (by simp)
    have hmirrors := hchain.unify hd.1 hd.2 fuel
    rw [List.map_cons, solveAll, Demand.constraint, solve, equate]
    rw [List.forall_mem_cons, List.filterMap_cons]
    simp only [Decides, errorOf]
    generalize Store.unify fuel d.expected d.actual st.store = o,
      Store.unify fuel d.expected d.actual cur.store = o' at hmirrors
    cases hmirrors with
    | outOfFuel => simp [Run.andThen]
    | @unified s t _ h =>
      have hnext := @ih { cur with store := t } (hchain.next hfirst h) hcap hcheckpoint
        (fun d hd => hbelow d (by simp [hd])) hrest
      simp only [Run.andThen, ne_eq, reduceCtorEq, not_false_eq_true, true_and]
      exact hnext
    | @failed m m' s t hm _ h =>
      have hreport : Solver.report { cur with store := t } m' d.span =
          { cur with store := t, errors := cur.errors ++ [⟨m', d.span, cur.checkpoint⟩] } :=
        report_of_uncapped { cur with store := t } hcap m' d.span
      obtain ⟨hends, herrors⟩ := @ih
        { cur with store := t, errors := cur.errors ++ [⟨m', d.span, cur.checkpoint⟩] }
        (hchain.next hfirst h) hcap hcheckpoint (fun d hd => hbelow d (by simp [hd])) hrest
      simp only [Run.andThen, hreport, ne_eq, reduceCtorEq, not_false_eq_true, true_and]
      refine ⟨hends, fun last hlast => ?_⟩
      obtain ⟨new, hnew, hsame⟩ := herrors last hlast
      refine ⟨⟨m', d.span, cur.checkpoint⟩ :: new, ?_, .cons ⟨hm.fault_eq, rfl, hcheckpoint⟩ hsame⟩
      rw [hnew, List.append_assoc, List.singleton_append]

/-- A conjunction of demands that share no variable, solved without a cap on errors, ends if each of
its parts ends alone. It then records one error for each demand that fails alone and none for the
others: in order, each at its own place and of the same kind, with the same missing and extra
fields, as when the demand is solved alone. -/
theorem solve_conj_independent (hcap : st.maxErrors = none) (hf : st.store.Forest)
    (hs : st.store.Contained)
    (hbelow : ∀ d ∈ ds, d.expected.Below st.store.size ∧ d.actual.Below st.store.size)
    (hind : ds.Pairwise (Demand.Independent st.store)) :
    ((∃ last, solve fuel ctx (.conj (ds.map Demand.constraint)) st = .done () last) ↔
      ∀ d ∈ ds, ∃ alone, solve fuel ctx d.constraint st = .done () alone) ∧
    (∀ d ∈ ds, ∀ alone, solve fuel ctx d.constraint st = .done () alone →
      alone.errors = st.errors ++ (st.errorOf fuel d).toList) ∧
    ∀ last, solve fuel ctx (.conj (ds.map Demand.constraint)) st = .done () last →
      ∃ new, last.errors = st.errors ++ new ∧
        List.Forall₂ TypeError.SameFault (ds.filterMap (st.errorOf fuel)) new := by
  obtain ⟨hends, herrors⟩ := solveAll_chain fuel ctx (.refl hf hs ds) hcap rfl hbelow hind
  simp only [solve_demand_iff, ← hends]
  rw [solve]
  refine ⟨?_, fun d _ alone => errors_of_solve_demand hcap, ?_⟩
  · cases solveAll fuel ctx (ds.map Demand.constraint) st <;> simp [Run.restore]
  · intro last hlast
    cases hrun : solveAll fuel ctx (ds.map Demand.constraint) st with
    | fatal e st' => rw [hrun] at hlast; cases hlast
    | outOfFuel => rw [hrun] at hlast; cases hlast
    | done _ st' => rw [hrun] at hlast; cases hlast; exact herrors st' hrun

def scattered : List Demand :=
  [⟨.record [("x", .int)] (some 0), .record [("y", .int)] (some 1), .wholeLine 1⟩,
    ⟨.func (.var 2) .int, .list (.var 2), .wholeLine 2⟩,
    ⟨.var 3, .list .string, .wholeLine 3⟩,
    ⟨.var 5, .list (.var 5), .wholeLine 4⟩,
    ⟨.record [("a", .int)] none, .record [("b", .int)] none, .wholeLine 5⟩]

def scatteredStore : Store := (Store.blank [] 6).put 3 (.bound (.list (.var 4)))

theorem scatteredStore_formed : scatteredStore.Formed :=
  Store.put_formed (Store.formed_blank [] 6) (by decide) (by decide) fun t ht => by
    cases ht
    simp [Ty.Fits, Ty.list, Ty.over_app, Ty.over_var, (Store.blank_view [] 6).2.1]

theorem solve_conj_independent_scattered : ∃ last,
    solve 12 [] (.conj (scattered.map Demand.constraint)) (.ofStore scatteredStore none) =
      .done () last ∧
    last.errors.map (fun e => (e.mismatch.fault, e.span)) =
      [(.shape, .wholeLine 2), (.occurs, .wholeLine 4), (.fields ["a"] ["b"], .wholeLine 5)] := by
  have hbelow : ∀ d ∈ scattered, ∀ v ∈ d.vars, v < scatteredStore.size := by decide
  have hf := scatteredStore_formed.forest
  have hs := scatteredStore_formed.contained
  have hind : scattered.Pairwise (Demand.Independent scatteredStore) := by
    have hsearch : scattered.Pairwise fun d d' =>
        ∀ r ∈ scatteredStore.reach (.func d.expected d.actual),
          r ∉ scatteredStore.reach (.func d'.expected d'.actual) := by decide
    exact hsearch.imp_of_mem fun hd hd' => (Store.independent_iff hf hs (hbelow _ hd) (hbelow _ hd')).mpr
  obtain ⟨hends, _, herrors⟩ := @solve_conj_independent 12 [] (.ofStore scatteredStore none) scattered
    rfl hf hs (fun d hd => ⟨fun v hv => hbelow d hd v (List.mem_append_left _ hv),
      fun v hv => hbelow d hd v (List.mem_append_right _ hv)⟩) hind
  obtain ⟨last, hlast⟩ := hends.mpr (by
    simp only [scattered, List.forall_mem_cons]
    exact ⟨⟨_, rfl⟩, ⟨_, rfl⟩, ⟨_, rfl⟩, ⟨_, rfl⟩, ⟨_, rfl⟩, by simp⟩)
  obtain ⟨new, hnew, hsame⟩ := herrors last hlast
  exact ⟨last, hlast, by rw [hnew]; exact TypeError.places_eq hsame⟩

end Solver
end TypeSolver
