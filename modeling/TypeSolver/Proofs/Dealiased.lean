import TypeSolver.Proofs.Health
import TypeSolver.Proofs.Names
import TypeSolver.Proofs.Tails

/-!
# TypeSolver.Proofs.Dealiased

No alias is left in the types of a program. When a type is read off the store, an alias that is
applied to all its arguments is replaced by its body, unless the body puts an argument behind the
fields of a record that is no record itself.

Such an argument cannot come up where the environment uses each parameter either as a type or behind
the fields of records, nor where no alias has a record that goes on with a parameter
(`dealiased`). In other environments an application may stay as it is (`stuck_alias`).
-/

namespace TypeSolver

inductive NamedType.AppliesAlias (table : AliasTable) : NamedType → Prop where
  | here {name : String} {entry : Alias} {args : List NamedType} :
      Assoc.get? table name = some entry → entry.params.length = args.length →
      AppliesAlias table (.app name args)
  | arg {arg ret : NamedType} : AppliesAlias table arg → AppliesAlias table (.func arg ret)
  | ret {arg ret : NamedType} : AppliesAlias table ret → AppliesAlias table (.func arg ret)
  | item {name : String} {args : List NamedType} {a : NamedType} : a ∈ args →
      AppliesAlias table a → AppliesAlias table (.app name args)
  | field {fields : List (String × NamedType)} {ext : Option String} {f : String × NamedType} :
      f ∈ fields → AppliesAlias table f.2 → AppliesAlias table (.record fields ext)

def Ty.Continues (t : Ty) : Prop := t.isVar = true ∨ ∃ fields ext, t = .record fields ext

theorem Signature.exists_extend {fields : List (String × Ty)} {x : String} {u : Ty}
    (hu : u.Continues) : ∃ t, extend fields x (some u) = .ok t := by
  rcases hu with hu | ⟨more, rest, rfl⟩
  · cases u with
    | var v => exact ⟨_, rfl⟩
    | _ => cases hu
  · exact ⟨_, rfl⟩

theorem Signature.Kinded.exists_toTy {K : Kinds} {N : String → Place → Prop}
    {σ : List (String × Ty)} {sig : Signature} {p : Place} (h : sig.Kinded K N p)
    (hσ : ∀ x ∈ sig.freeVars, ∃ u, Assoc.get? σ x = some u)
    (hrow : ∀ x u, Assoc.get? σ x = some u → N x .row → u.Continues) :
    ∃ t, sig.toTy σ = .ok t := by
  induction h with
  | @var p x _ => exact (hσ x (by simp)).imp fun _ => toTy_var.mpr
  | @con p name args _ _ ih =>
    obtain ⟨ts, hts⟩ := exists_forall₂ fun a ha => by
      obtain ⟨i, hi⟩ := List.getElem?_of_mem ha
      exact ih i a hi fun x hx => hσ x (mem_freeVars_con.mpr ⟨a, ha, hx⟩)
    exact ⟨_, toTy_con.mpr ⟨ts, hts, rfl⟩⟩
  | func _ _ _ iha ihr =>
    obtain ⟨a, ha⟩ := iha fun x hx => hσ x (mem_freeVars_func.mpr (.inl hx))
    obtain ⟨r, hr⟩ := ihr fun x hx => hσ x (mem_freeVars_func.mpr (.inr hx))
    exact ⟨_, toTy_func.mpr ⟨a, r, ha, hr, rfl⟩⟩
  | @record p fields ext _ he ih =>
    obtain ⟨gs, hgs⟩ := Assoc.exists_related (R := fun e t => e.toTy σ = .ok t) fun f hf =>
      ih f hf fun x hx => hσ x (mem_freeVars_record.mpr (.inl ⟨f, hf, hx⟩))
    cases ext with
    | none => exact ⟨_, toTy_record.mpr ⟨gs, hgs, rfl⟩⟩
    | some x =>
      obtain ⟨u, hu⟩ := hσ x (mem_freeVars_record.mpr (.inr rfl))
      obtain ⟨t, ht⟩ : ∃ t, extend gs x (some u) = .ok t := exists_extend (hrow x u hu (he x rfl))
      exact ⟨t, toTy_record.mpr ⟨gs, hgs, by simpa only [hu] using ht⟩⟩

/-- No record in the body of the alias goes on with a parameter. -/
def Alias.EndsRecords (entry : Alias) : Prop :=
  entry.body.Kinded .loose (fun _ p => p = .type) .type

namespace AliasTable

def Scoped (table : AliasTable) : Prop :=
  ∀ name entry, Assoc.get? table name = some entry →
    firstUnbound entry.params entry.body.freeVars = none

/-- An alias that is applied to all its arguments can be expanded, if they stand at its places. -/
def Total (K : Kinds) (table : AliasTable) : Prop :=
  ∀ (M : Var → Place → Prop) p name entry args, Assoc.get? table name = some entry →
    entry.params.length = args.length → (Ty.app name args).Kinded K M p →
    ∃ u, table.expand name args = some (.ok u)

variable {K : Kinds} {table : AliasTable}

theorem exists_arg {params : List String} {args : List Ty} (hlen : params.length = args.length)
    {x : String} (hx : x ∈ params) : ∃ u, Assoc.get? (params.zip args).reverse x = some u := by
  refine Option.ne_none_iff_exists'.mp fun hnone => Assoc.get?_eq_none_iff.mp hnone ?_
  rw [Assoc.keys, List.map_reverse, List.map_fst_zip (Nat.le_of_eq hlen)]
  exact List.mem_reverse.mpr hx

theorem exists_expand (hscoped : table.Scoped) {name : String} {entry : Alias} {args : List Ty}
    {N : String → Place → Prop} (hentry : Assoc.get? table name = some entry)
    (hlen : entry.params.length = args.length) (hN : entry.body.Kinded K N .type)
    (hrow : ∀ (i : Nat) x (u : Ty), entry.params[i]? = some x → args[i]? = some u → N x .row →
      u.Continues) : ∃ u, table.expand name args = some (.ok u) := by
  obtain ⟨u, hu⟩ := hN.exists_toTy (σ := (entry.params.zip args).reverse)
    (fun x hx => exists_arg hlen (by
      have hfirst := hscoped name entry hentry
      rw [firstUnbound, List.find?_eq_none] at hfirst
      simpa using hfirst x hx))
    fun x u hget hx => by
      obtain ⟨i, hi⟩ := List.getElem?_of_mem (List.mem_reverse.mp (Assoc.mem_of_get? hget))
      obtain ⟨hxi, hui⟩ := List.getElem?_zip_eq_some.mp hi
      exact hrow i x u hxi hui hx
  exact ⟨u, by rw [expand, hentry]; simp [hlen, hu]⟩

theorem Kinded.total (h : table.Kinded K) (hK : K.strict) (hscoped : table.Scoped) :
    table.Total K := by
  intro M p name entry args hentry hlen happ
  refine exists_expand hscoped hentry hlen (h name entry hentry) fun i x u hxi hui hx => ?_
  have hu := (Ty.kinded_app.mp happ).2 i u hui
  rw [← hlen, hx i hxi hK] at hu
  exact (Bool.eq_false_or_eq_true u.isVar).imp_right (hu.exists_record hK)

theorem total_of_endsRecords (h : ∀ name entry, Assoc.get? table name = some entry →
    entry.EndsRecords) (hscoped : table.Scoped) : table.Total .loose := by
  intro M p name entry args hentry hlen _
  exact exists_expand hscoped hentry hlen (h name entry hentry) (by rintro _ _ _ _ _ ⟨⟩)

end AliasTable

namespace Store

variable {K : Kinds} {place : Var → Place} {s : Store}

theorem closeRecord_appliesAlias {table : AliasTable} {fields : List (String × NamedType)}
    {rest : NamedType} (h : (closeRecord fields rest).AppliesAlias table)
    (hf : ∀ f ∈ fields, ¬ f.2.AppliesAlias table) : rest.AppliesAlias table := by
  cases rest with
  | record more ext =>
    cases h with
    | field hmem h =>
      rcases Assoc.mem_of_mem_union hmem with hmem | hmem
      · exact absurd h (hf _ hmem)
      · exact .field hmem h
  | _ => cases h with | field hmem h => exact absurd h (hf _ hmem)

theorem Placed.readType_dealiased (hs : s.Placed K place) (htotal : s.aliases.Total K) {k : Nat}
    {t : Ty} {p : Place} {nm nm' : Naming} {n : NamedType}
    (h : (s.readType k t).run nm = some (n, nm')) (ht : t.Kinded K (fun _ _ => True) p) :
    ¬ n.AppliesAlias s.aliases := by
  refine readType_induction (motive := fun _ t _ n _ => ∀ p, t.Kinded K (fun _ _ => True) p →
    ¬ n.AppliesAlias s.aliases) ?bound nofun nofun ?func ?expanded ?app ?record h p ht
  case bound =>
    intro _ v t _ n _ hc ih _ _
    exact ih _ ((hs.bound v t (kind_eq_bound.mpr hc)).2.mono fun _ _ _ _ => .intro)
  case func =>
    intro _ arg ret _ a _ r _ iha ihr p ht happ
    obtain ⟨_, harg, hret⟩ := Ty.kinded_func.mp ht
    cases happ with
    | arg happ => exact iha _ harg happ
    | ret happ => exact ihr _ hret happ
  case expanded =>
    exact fun hex ih _ ht => ih _ (hs.table.expand (fun _ _ _ _ _ => .intro) ht hex)
  case app =>
    intro _ name args _ ts _ hne hts p ht happ
    have hts' : ∀ n ∈ ts, ¬ n.AppliesAlias s.aliases := hts.forall_mem fun a ha _ _ _ h => by
      obtain ⟨i, hi⟩ := List.getElem?_of_mem ha
      exact h _ ((Ty.kinded_app.mp ht).2 i a hi)
    cases happ with
    | here hentry hlen =>
      obtain ⟨u, hu⟩ := htotal _ _ _ _ _ hentry (hlen.trans hts.length_eq.symm) ht
      exact hne u hu
    | item hmem happ => exact hts' _ hmem happ
  case record =>
    intro _ fields ext _ fs _ n _ hfs hend p ht
    have hfs' : ∀ g ∈ fs, ¬ g.2.AppliesAlias s.aliases :=
      hfs.forall_mem fun f hf _ _ _ h => h.2 _ ((Ty.kinded_record.mp ht).1 f hf)
    cases ext with
    | none =>
      obtain ⟨rfl, _⟩ := hend
      intro happ
      cases happ with
      | field hmem happ => exact hfs' _ hmem happ
    | some v =>
      obtain ⟨rest, ih, rfl⟩ := hend
      exact fun happ => ih .row (.var .intro) (closeRecord_appliesAlias happ hfs')

end Store

theorem Kinds.notable (K : Kinds) : Notable fun _ t => t.Kinded K (fun _ _ => True) .type where
  mono _ h := h
  var _ := .var .intro
  bool := .app .refl nofun
  func ha hr := .func .refl ha hr
  record hf _ := .record hf fun _ _ => .intro

theorem Environment.exists_total {env : Environment} {table : AliasTable}
    (htable : env.aliasTable = .ok table)
    (h : env.KeepsPlaces ∨ ∀ e ∈ env.aliases, e.2.EndsRecords) :
    ∃ K, env.Kinded K ∧ table.Total K := by
  have hscoped : table.Scoped := (aliasTable_spec
    (P := fun _ entry => firstUnbound entry.params entry.body.freeVars = none) htable
    fun _ _ hscope => hscope).1
  rcases h with ⟨param, henv⟩ | hends
  · exact ⟨_, henv, (henv.table htable).total .intro hscoped⟩
  · refine ⟨.loose, env.kinded_loose, AliasTable.total_of_endsRecords ?_ hscoped⟩
    exact (aliasTable_spec (P := fun _ entry => entry.EndsRecords) htable fun e he _ => hends e he).1

/-- If a program gets types, no alias that is applied to all its arguments is left in the type of a
binding or an expression. The environment keeps types and rows apart, or none of its aliases has a
record that goes on with a parameter. -/
theorem dealiased {fuel : Nat} {program : Program} {env : Environment} {config : Config}
    {typed : TypedProgram} (henv : env.KeepsPlaces ∨ ∀ e ∈ env.aliases, e.2.EndsRecords)
    (h : inferProgram fuel program env config = some (.ok typed)) :
    ∃ table, env.aliasTable = .ok table ∧ (∀ b ∈ typed.bindings, ¬ b.2.ty.AppliesAlias table) ∧
      ∀ e ∈ typed.nodeTypes, ¬ e.2.AppliesAlias table := by
  obtain ⟨p, st, hp, hsolve, herr, hbindings, hnodes⟩ := inferProgram_eq_ok h
  obtain ⟨table, htable, haliases, _⟩ := ofProgram_makes env.kinded_loose.admits (.inl .intro) hp
  obtain ⟨K, hkinded, htotal⟩ := Environment.exists_total htable henv
  obtain ⟨place, hstart⟩ := Prepared.placed_start hkinded hp config
  obtain ⟨made, hsteps⟩ := Moment.steps_of_solve [] p.store.ranks hsolve
  obtain ⟨place', hg, hend⟩ := Moment.Steps.placed hsteps hstart herr
  have heq : st.store.aliases = table := hg.aliases.trans haliases
  subst heq
  have hread : ∀ t nm n nm', t.Kinded K (fun _ _ => True) .type →
      (st.store.readType fuel t).run nm = some (n, nm') → ¬ n.AppliesAlias st.store.aliases :=
    fun _ _ _ _ ht hn => hend.store.readType_dealiased htotal hn ht
  have htop : Context.Types (fun t => t.Kinded K (fun _ _ => True) .type) st.topLevel :=
    fun e he t ht => (hend.types.topLevel e he t ht).mono fun _ _ _ _ => .intro
  exact ⟨_, htable, readBindings_forall hread hbindings htop,
    readNodeTypes_forall hread hnodes (Prepared.nodeTypes_notable K.notable hp)⟩

def withRow : List (String × Alias) :=
  [("R", ⟨["r"], .record [("x", .con "Int" [])] (some "r")⟩)]

def recordRow : Environment where
  aliases := withRow
  values := [("v", .con "R" [.record [("y", .con "Int" [])] none])]

def integerRow : Environment where
  aliases := withRow
  values := [("v", .con "R" [.con "Int" []])]

def useRow : Program where
  groups := [⟨[{ name := "main", params := [], span := {}, body := ⟨0, {}, .var "v"⟩ }]⟩]

theorem keepsPlaces_recordRow : recordRow.KeepsPlaces := by
  refine ⟨fun name _ _ => if name = "R" then .row else .type, ⟨fun e he => ?_, fun sig hsig => ?_,
    fun _ => rfl⟩⟩
  · obtain rfl := List.mem_singleton.mp he
    refine .record (fun f hf => ?_) fun x hx i _ => ?_
    · obtain rfl := List.mem_singleton.mp hf
      exact .con .refl nofun
    · exact fun _ => rfl
  · rcases hsig with ⟨_, _, hmem, _⟩ | ⟨name, hmem⟩
    · cases hmem
    · cases List.mem_singleton.mp hmem
      refine ⟨fun _ => .type, .con .refl fun i a ha => ?_⟩
      obtain ⟨_, rfl⟩ : i = 0 ∧ _ = a := by simpa [List.getElem?_cons] using ha
      refine .record (fun f hf => ?_) nofun
      obtain rfl := List.mem_singleton.mp hf
      exact .con .refl nofun

/-- The record takes the place of the parameter. -/
theorem dealiased_recordRow : recordRow.KeepsPlaces ∧ ∃ table typed,
    inferProgram 20 useRow recordRow {} = some (.ok typed) ∧ recordRow.aliasTable = .ok table ∧
    (∀ b ∈ typed.bindings, ¬ b.2.ty.AppliesAlias table) ∧
    ∀ e ∈ typed.nodeTypes, ¬ e.2.AppliesAlias table := by
  obtain ⟨typed, htyped⟩ : ∃ typed, inferProgram 20 useRow recordRow {} = some (.ok typed) := by
    generalize hrun : inferProgram 20 useRow recordRow {} = r
    cbv at hrun
    exact ⟨_, hrun.symm⟩
  obtain ⟨table, htable, hclear⟩ := dealiased (.inl keepsPlaces_recordRow) htyped
  exact ⟨keepsPlaces_recordRow, table, typed, htyped, htable, hclear⟩

/-- The alias cannot be expanded, no error is recorded, and the program gets types in which it is
applied. -/
theorem stuck_alias : ∃ table typed, integerRow.aliasTable = .ok table ∧
    inferProgram 20 useRow integerRow {} = some (.ok typed) ∧
    (∃ b ∈ typed.bindings, b.2.ty.AppliesAlias table) ∧
    ∃ e ∈ typed.nodeTypes, e.2.AppliesAlias table := by
  obtain ⟨typed, htyped, hb, he⟩ : ∃ typed, inferProgram 20 useRow integerRow {} = some (.ok typed) ∧
      typed.bindings = [("main", ⟨[], .app "R" [.app "Int" []]⟩)] ∧
      typed.nodeTypes = [(0, .app "R" [.app "Int" []])] := by
    generalize hrun : inferProgram 20 useRow integerRow {} = r
    cbv at hrun
    exact ⟨_, hrun.symm, rfl, rfl⟩
  have hentry : Assoc.get? withRow "R" = some ⟨["r"], .record [("x", .con "Int" [])] (some "r")⟩ := rfl
  have happ : (NamedType.app "R" [.app "Int" []]).AppliesAlias integerRow.aliases :=
    .here hentry rfl
  refine ⟨integerRow.aliases, typed, by cbv, htyped, ?_, ?_⟩
  · rw [hb]; exact ⟨_, .head _, happ⟩
  · rw [he]; exact ⟨_, .head _, happ⟩

end TypeSolver
