import TypeSolver.Proofs.Compression
import TypeSolver.Proofs.NodeTypes
import TypeSolver.Proofs.PlacedRuns

/-!
# TypeSolver.Proofs.Health

Success leaves nothing poisoned. A unification that succeeds gives up no class, so in a run without
errors no class is given up, and no error stands in a type that is read off the last store
(`success_unpoisoned`).
-/

namespace TypeSolver

inductive NamedType.HasError : NamedType → Prop where
  | error : HasError .error
  | arg {arg ret : NamedType} : HasError arg → HasError (.func arg ret)
  | ret {arg ret : NamedType} : HasError ret → HasError (.func arg ret)
  | app {name : String} {args : List NamedType} {a : NamedType} : a ∈ args → HasError a →
      HasError (.app name args)
  | field {fields : List (String × NamedType)} {ext : Option String} {f : String × NamedType} :
      f ∈ fields → HasError f.2 → HasError (.record fields ext)

namespace Store

variable {K : Kinds} {place : Var → Place} {s s' : Store}

theorem stands_loose {t : Ty} {n : Nat} (ht : t.Below n) (p : Place) :
    t.Stands .loose place n p :=
  Ty.kinded_loose (fun v hv _ => ⟨ht v hv, Kinds.loose_same⟩) p

theorem Healthy.placed (h : s.Healthy) (hs : s.Contained) (place : Var → Place) :
    s.Placed .loose place where
  forest := h.forest
  healthy := h
  root _ _ := Kinds.loose_same
  bound v t hk := ⟨False.elim, stands_loose (hs v t hk) _⟩
  table name entry _ := Alias.kinded_loose name entry

/-- A unification that succeeds gives up no class. -/
theorem Healthy.unify (h : s.Healthy) (hs : s.Contained) {fuel : Nat} {l r : Ty}
    (hl : l.Below s.size) (hr : r.Below s.size) (hrun : unify fuel l r s = .unified s') :
    s'.Healthy ∧ s'.Contained := by
  have hran : Ran fuel (.types l r) s (.unified s') := ⟨hrun, by simp⟩
  obtain ⟨_, hg⟩ := ran_keeps fuel hran (h.placed hs fun _ => .type)
    ⟨.type, stands_loose hl _, stands_loose hr _⟩
  exact ⟨hg.placed.healthy, hg.placed.contained⟩

theorem closeRecord_hasError {fields : List (String × NamedType)} {rest : NamedType}
    (h : (closeRecord fields rest).HasError) (hf : ∀ f ∈ fields, ¬ f.2.HasError) :
    rest.HasError := by
  cases rest with
  | record more ext =>
    cases h with
    | field hmem h =>
      rcases Assoc.mem_of_mem_union hmem with hmem | hmem
      · exact absurd h (hf _ hmem)
      · exact .field hmem h
  | error => exact .error
  | _ => cases h with | field hmem h => exact absurd h (hf _ hmem)

theorem Placed.readType (hs : s.Placed K place) {k : Nat} {t : Ty} {p : Place} {nm nm' : Naming}
    {n : NamedType} (h : (s.readType k t).run nm = some (n, nm'))
    (ht : t.Stands K place s.size p) : ¬ n.HasError := by
  refine readType_induction (motive := fun _ t _ n _ => ∀ p, t.Stands K place s.size p →
    ¬ n.HasError) ?bound ?poisoned nofun ?func ?expanded ?app ?record h p ht
  case bound => exact fun hc ih _ _ => ih _ (hs.bound _ _ (kind_eq_bound.mpr hc)).2
  case poisoned =>
    intro _ v _ hc p ht
    exact absurd (kind_eq_poisoned.mpr hc) (hs.healthy v (Ty.kinded_var.mp ht).1)
  case func =>
    intro _ arg ret _ a _ r _ iha ihr p ht herr
    obtain ⟨_, harg, hret⟩ := Ty.kinded_func.mp ht
    cases herr with
    | arg herr => exact iha _ harg herr
    | ret herr => exact ihr _ hret herr
  case expanded => exact fun hex ih _ ht => ih _ (hs.table.expand Kinds.respects_standing ht hex)
  case app =>
    intro _ name args _ ts _ _ hts p ht herr
    have hts' : ∀ n ∈ ts, ¬ n.HasError := hts.forall_mem fun a ha _ _ _ h => by
      obtain ⟨i, hi⟩ := List.getElem?_of_mem ha
      exact h _ ((Ty.kinded_app.mp ht).2 i a hi)
    cases herr with
    | app hmem herr => exact hts' _ hmem herr
  case record =>
    intro _ fields ext _ fs _ n _ hfs hend p ht
    obtain ⟨hfields, hext⟩ := Ty.kinded_record.mp ht
    have hfs' : ∀ g ∈ fs, ¬ g.2.HasError :=
      hfs.forall_mem fun f hf _ _ _ h => h.2 _ (hfields f hf)
    cases ext with
    | none =>
      obtain ⟨rfl, _⟩ := hend
      intro herr
      cases herr with
      | field hmem herr => exact hfs' _ hmem herr
    | some v =>
      obtain ⟨rest, ih, rfl⟩ := hend
      exact fun herr => ih _ (.var (hext v rfl)) (closeRecord_hasError herr hfs')

end Store

variable {K : Kinds} {place : Var → Place} {s : Store} {fuel : Nat}

variable {T : Ty → Prop} {P : NamedType → Prop} {schemes : Context}
  {bindings : List (String × Polytype)} {types : List (UInt32 × Ty)}
  {named : List (UInt32 × NamedType)}

theorem readBindings_forall
    (hread : ∀ t nm n nm', T t → (s.readType fuel t).run nm = some (n, nm') → P n)
    (h : readBindings s fuel schemes = some bindings) (ht : schemes.Types T) :
    ∀ b ∈ bindings, P b.2.ty := by
  intro b hb
  obtain ⟨scheme, t, hmem, htype, hp⟩ := exists_scheme_of_mem h hb
  obtain ⟨⟨n, nm⟩, hn, heq⟩ := Option.map_eq_some_iff.mp hp
  rw [← heq]
  exact hread t _ n nm (ht _ hmem _ (Assoc.mem_of_get? htype)) hn

theorem readNodeTypes_forall
    (hread : ∀ t nm n nm', T t → (s.readType fuel t).run nm = some (n, nm') → P n)
    (h : readNodeTypes s fuel types = some named) (ht : ∀ e ∈ types, T e.2) :
    ∀ e ∈ named, P e.2 := by
  obtain ⟨⟨_, nm⟩, hrun, rfl⟩ := Option.map_eq_some_iff.mp h
  refine (mapM_run_eq_some.mp hrun).forall_mem fun e he nm e' nm' hrun => ?_
  obtain ⟨_, hn, heq⟩ := Option.bind_eq_some_iff.mp hrun
  cases heq
  exact hread e.2 _ _ _ (ht e he) hn

theorem Store.Placed.readBindings (hs : s.Placed K place)
    (h : readBindings s fuel schemes = some bindings)
    (ht : schemes.Types (Ty.Stands K place s.size .type)) : ∀ b ∈ bindings, ¬ b.2.ty.HasError :=
  readBindings_forall (P := fun n => ¬ n.HasError) (fun _ _ _ _ ht hn => hs.readType hn ht) h ht

theorem Store.Placed.readNodeTypes (hs : s.Placed K place)
    (h : readNodeTypes s fuel types = some named)
    (ht : ∀ e ∈ types, e.2.Stands K place s.size .type) : ∀ e ∈ named, ¬ e.2.HasError :=
  readNodeTypes_forall (P := fun n => ¬ n.HasError) (fun _ _ _ _ ht hn => hs.readType hn ht) h ht

/-- Success leaves nothing poisoned. A unification that succeeds in a store without poisoned classes
leaves none, if nothing mentions a variable that was never made. And if a program gets types, then
no class is poisoned in the end, and no error stands in the type of a binding or an expression. -/
theorem success_unpoisoned (fuel : Nat) :
    (∀ (s s' : Store) (l r : Ty), s.Healthy → s.Contained → l.Below s.size → r.Below s.size →
      Store.unify fuel l r s = .unified s' → s'.Healthy ∧ s'.Contained) ∧
    ∀ (program : Program) (env : Environment) (config : Config) (typed : TypedProgram),
      inferProgram fuel program env config = some (.ok typed) →
      ∃ p st, Prepared.ofProgram program env = .ok p ∧ p.solve fuel config = .done () st ∧
        st.store.Healthy ∧ (∀ b ∈ typed.bindings, ¬ b.2.ty.HasError) ∧
        ∀ e ∈ typed.nodeTypes, ¬ e.2.HasError := by
  refine ⟨fun s s' l r hh hs hl hr h => hh.unify hs hl hr h, fun program env config typed h => ?_⟩
  obtain ⟨p, st, hp, hsolve, herr, hbindings, hnodes⟩ := inferProgram_eq_ok h
  obtain ⟨place, hstart⟩ := Prepared.placed_start env.kinded_loose hp config
  obtain ⟨made, hsteps⟩ := Moment.steps_of_solve [] p.store.ranks hsolve
  obtain ⟨place', hg, hend⟩ := Moment.Steps.placed hsteps hstart herr
  have hnode : ∀ e ∈ p.nodeTypes, e.2.Stands .loose place' st.store.size .type := fun e he =>
    Store.stands_loose (fun v hv =>
      Nat.lt_of_lt_of_le (Prepared.nodeTypes_notable Ty.notable_below hp e he v hv) hg.size_le) .type
  exact ⟨p, st, hp, hsolve, hend.store.healthy, hend.store.readBindings hbindings hend.types.topLevel,
    hend.store.readNodeTypes hnodes hnode⟩

open Moment in
/-- A record with one more field, and the identity with a use of it. -/
theorem success_unpoisoned_identity :
    (∃ s s', s.size = 2 ∧ Store.unify 20 (.record [("x", .var 0)] (some 1))
        (.record [("x", .app "Int" []), ("y", .app "Int" [])] none) s = .unified s' ∧
      s'.Healthy ∧ s'.Contained) ∧
    ∃ typed st, inferProgram 20 identity {} {} = some (.ok typed) ∧
      identityPrepared.solve 20 {} = .done () st ∧ st.store.Healthy ∧
      (∀ b ∈ typed.bindings, ¬ b.2.ty.HasError) ∧ ∀ e ∈ typed.nodeTypes, ¬ e.2.HasError := by
  obtain ⟨hunify, hinfer⟩ := success_unpoisoned 20
  refine ⟨?_, ?_⟩
  · let s : Store := { slots := #[.root (.unbound 0 none), .root (.unbound 0 none)] }
    have hs : ∀ v, v < 2 → s.kind v = .free
      | 0, _ => rfl
      | 1, _ => rfl
    have hbound : ∀ v t, s.kind v ≠ .bound t := fun v t hk => by
      rw [hs v (Store.lt_of_kind (by rw [hk]; simp))] at hk
      cases hk
    obtain ⟨s', hs'⟩ : ∃ s', Store.unify 20 (.record [("x", .var 0)] (some 1))
        (.record [("x", .app "Int" []), ("y", .app "Int" [])] none) s = .unified s' := by
      generalize hrun : Store.unify 20 _ _ s = o
      cbv at hrun
      exact ⟨_, hrun.symm⟩
    exact ⟨s, s', rfl, hs', hunify s s' _ _ (fun v hv => by rw [hs v hv]; simp)
      (fun v t hk => absurd hk (hbound v t)) (by decide) (by decide) hs'⟩
  · obtain ⟨typed, htyped⟩ : ∃ typed, inferProgram 20 identity {} {} = some (.ok typed) := by
      generalize hrun : inferProgram 20 identity {} {} = r
      cbv at hrun
      exact ⟨_, hrun.symm⟩
    obtain ⟨p, st, hp, hst, hend⟩ := hinfer _ _ _ _ htyped
    rw [identity_prepared] at hp
    cases hp
    exact ⟨typed, st, htyped, hst, hend⟩

end TypeSolver
