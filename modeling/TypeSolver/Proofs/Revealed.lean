import TypeSolver.Proofs.Exposure
import TypeSolver.Proofs.Walks

/-!
# TypeSolver.Proofs.Revealed

How what a pattern binds depends on what the pattern is compared with. The equations of a pattern
are solved in order. Each one has a side over variables that are known by then, and so makes known
the variables of its other side (`Reveals`); at the end the variables of all names are known
(`pattern_reveals`). A constructor must not hide its parameters for this: what it builds mentions
them even when aliases are expanded (`Constructor.Shows`).

A constraint is `Grounded` when all its boundaries are of this kind, or boundaries of groups of
definitions. The constraints of programs are.
-/

namespace TypeSolver

/-- With aliases expanded, what the constructor builds still mentions all of its parameters. -/
def Constructor.Shows (table : AliasTable) (c : Constructor) : Prop :=
  ∀ vs : List Var, vs.length = c.params.length →
    (Ty.app c.result (vs.map .var)).Exposed table fun _ => False

/-- A type that is no alias shows its parameters. -/
theorem Constructor.shows_of_not_alias {table : AliasTable} {c : Constructor}
    (h : Assoc.get? table c.result = none) : c.Shows table := by
  intro vs _
  refine .app (by rw [AliasTable.expand, h]) fun t ht => ?_
  obtain ⟨v, _, rfl⟩ := List.mem_map.mp ht
  exact .var

namespace Constraint

/-- One side of an equation is over the known variables, and the other side shows its own. -/
def Ties (table : AliasTable) (U : Var → Prop) (l r : Ty) : Prop :=
  (∀ v ∈ l.vars, U v) ∧ r.Exposed table U ∨ l.Spine U ∧ ∀ v ∈ r.vars, U v

/-- If the variables in `U` are known, then those in `V` are known when all equations are solved. -/
inductive Reveals (table : AliasTable) (V : Var → Prop) :
    (U : Var → Prop) → List Constraint → Prop where
  | done {U : Var → Prop} : (∀ v, V v → U v) → Reveals table V U []
  | checkpoint {U : Var → Prop} {span : Span} {cs : List Constraint} : Reveals table V U cs →
      Reveals table V U (.checkpoint span :: cs)
  | equal {U : Var → Prop} {l r : Ty} {span : Span} {cs : List Constraint} : Ties table U l r →
      Reveals table V (fun v => U v ∨ v ∈ l.vars ∨ v ∈ r.vars) cs →
      Reveals table V U (.equal l r span :: cs)

variable {table : AliasTable} {U U' V V' W : Var → Prop} {cs ds : List Constraint}

theorem Ties.mono {l r : Ty} (h : Ties table U l r) (hU : ∀ v, U v → U' v) : Ties table U' l r :=
  h.imp (fun h => ⟨fun v hv => hU v (h.1 v hv), h.2.mono hU⟩)
    fun h => ⟨h.1.mono hU, fun v hv => hU v (h.2 v hv)⟩

namespace Reveals

theorem mono (h : Reveals table V U cs) (hU : ∀ v, U v → U' v) : Reveals table V U' cs := by
  induction h generalizing U' with
  | done hV => exact .done fun v hv => hU v (hV v hv)
  | checkpoint _ ih => exact .checkpoint (ih hU)
  | equal hlr _ ih => exact .equal (hlr.mono hU) (ih fun v hv => hv.imp_left (hU v))

theorem weaken (h : Reveals table V U cs) (hV : ∀ v, V' v → V v) : Reveals table V' U cs := by
  induction h with
  | done hU => exact .done fun v hv => hU v (hV v hv)
  | checkpoint _ ih => exact .checkpoint ih
  | equal hlr _ ih => exact .equal hlr ih

theorem trans (h : Reveals table V U cs) (h' : Reveals table W V ds) :
    Reveals table W U (cs ++ ds) := by
  induction h with
  | done hV => exact h'.mono hV
  | checkpoint _ ih => exact .checkpoint ih
  | equal hlr _ ih => exact .equal hlr ih

theorem keep (h : Reveals table V U cs) (hU : ∀ v, U' v → U v) :
    Reveals table (fun v => U' v ∨ V v) U cs := by
  induction h with
  | done hV => exact .done fun v hv => hv.elim (hU v) (hV v)
  | checkpoint _ ih => exact .checkpoint (ih hU)
  | equal hlr _ ih => exact .equal hlr (ih fun v hv => .inl (hU v hv))

theorem append (h : Reveals table V U cs) (h' : Reveals table W U ds) :
    Reveals table (fun v => V v ∨ W v) U (cs ++ ds) :=
  have hkeep : Reveals table (fun v => U v ∨ V v) U cs := h.keep fun _ hv => hv
  hkeep.trans ((h'.mono fun _ => .inl).keep fun _ hv => .inr hv)

end Reveals

/-- The constraint is an equation, or makes no demand at all. -/
def compares : Constraint → Bool
  | .checkpoint _ => true
  | .equal _ _ _ => true
  | _ => false

theorem Reveals.compares (h : Reveals table V U cs) : ∀ c ∈ cs, c.compares = true := by
  induction h with
  | done => exact fun c hc => absurd hc List.not_mem_nil
  | checkpoint _ ih => exact List.forall_mem_cons.mpr ⟨rfl, ih⟩
  | equal _ _ ih => exact List.forall_mem_cons.mpr ⟨rfl, ih⟩

/-- At each boundary without definitions, the equations reveal what it binds, from what was made at
the rank of the boundary or further outside. The names of a boundary of definitions are bound around
the definitions once more. -/
inductive Grounded (table : AliasTable) (s : Store) : Rank → Constraint → Prop where
  | trivial {k : Rank} : Grounded table s k .trivial
  | checkpoint {k : Rank} {span : Span} : Grounded table s k (.checkpoint span)
  | equal {k : Rank} {expected actual : Ty} {span : Span} :
      Grounded table s k (.equal expected actual span)
  | instanceOf {k : Rank} {name : String} {ty : Ty} {span : Span} :
      Grounded table s k (.instanceOf name ty span)
  | conj {k : Rank} {items : List Constraint} : (∀ c ∈ items, Grounded table s k c) →
      Grounded table s k (.conj items)
  | boundary {k : Rank} {vars : List Var} {header : Header} {defs body : Constraint} :
      Reveals table (fun v => ∃ e ∈ header, v ∈ e.2.vars) (fun v => ∃ j ≤ k, s.Made v j)
        defs.parts →
      Grounded table s k body → Grounded table s k (.letIn vars header defs body)
  | group {k : Rank} {vars : List Var} {header : Header} {defs body : Constraint} :
      (header = [] ∨ ∃ d, defs = .letIn [] header .trivial d) → Grounded table s (k + 1) defs →
      Grounded table s k body → Grounded table s k (.letIn vars header defs body)

variable {s : Store} {k : Rank}

variable {c : Constraint}

theorem grounded_iff_parts : c.Grounded table s k ↔ ∀ p ∈ c.parts, p.Grounded table s k := by
  cases c with
  | trivial => exact ⟨fun _ _ hp => absurd hp List.not_mem_nil, fun _ => .trivial⟩
  | conj items => exact ⟨fun h => by cases h with | conj h => exact h, .conj⟩
  | _ => simp [parts]

theorem grounded_and {d : Constraint} :
    (c.and d).Grounded table s k ↔ c.Grounded table s k ∧ d.Grounded table s k :=
  and_iff_of_parts (B := (Grounded table s k ·)) grounded_iff_parts

end Constraint

namespace Fragment

open Constraint (Reveals Ties)

/-- If the variables in `U` are known, the equations of the fragment reveal what its names stand
for. -/
def Reveals (table : AliasTable) (U : Var → Prop) (f : Fragment) : Prop :=
  Constraint.Reveals table (fun v => ∃ e ∈ f.env, v ∈ e.2.vars) U f.constraint.parts

variable {table : AliasTable} {U : Var → Prop} {f g : Fragment}

theorem Reveals.empty : Fragment.empty.Reveals table U :=
  .done fun _ hv => by simp [Fragment.empty] at hv

theorem Reveals.binding {name : String} {v : Var} {expected : Ty} {span : Span}
    (h : ∀ w ∈ expected.vars, U w) :
    (Fragment.binding name v (.equal expected (.var v) span)).Reveals table U := by
  refine .equal (.inl ⟨h, .var⟩) (.done fun w hw => ?_)
  obtain ⟨e, he, hw⟩ := hw
  obtain rfl := List.mem_singleton.mp he
  exact .inr (.inr hw)

theorem Reveals.join (hf : f.Reveals table U) (hg : g.Reveals table U) :
    (f.join g).Reveals table U := by
  show Constraint.Reveals table _ U (f.constraint.and g.constraint).parts
  rw [Constraint.parts_and]
  refine (hf.append hg).weaken fun v hv => ?_
  obtain ⟨e, he, hv⟩ := hv
  exact (Assoc.mem_of_mem_union he).imp (fun he => ⟨e, he, hv⟩) fun he => ⟨e, he, hv⟩

theorem reveals_joinAll {fs : List Fragment} (h : ∀ f ∈ fs, f.Reveals table U) :
    (joinAll fs).Reveals table U :=
  joinAll_induction .empty (fun _ _ hf hacc => hf.join hacc) h

theorem Reveals.after {vars : List Var} {c : Constraint} {V : Var → Prop}
    (hc : Constraint.Reveals table V U c.parts) (hg : g.Reveals table V) :
    (Fragment.join { vars := vars, constraint := c } g).Reveals table U := by
  show Constraint.Reveals table _ U (c.and g.constraint).parts
  rw [Constraint.parts_and]
  refine (hc.trans hg).weaken fun v hv => ?_
  obtain ⟨e, he, hv⟩ := hv
  exact ⟨e, (Assoc.mem_of_mem_union he).resolve_left List.not_mem_nil, hv⟩

end Fragment

namespace Generate

variable {s : Store} {g : Generator} {env : Environment} {table : AliasTable}

/-- Each field of a record pattern is bound to a variable. -/
theorem fieldBindings_vars (names : List String) : Walks s (fieldBindings names) g fun fs =>
    ∀ f ∈ fs, ∃ name v, f = .binding name v .trivial := by
  induction names generalizing g with
  | nil => exact .pure (by simp)
  | cons name names ih =>
    refine .bind fresh_walks fun v g1 _ => .bind ih fun fs g2 _ => .pure fun hfs _ f hf => ?_
    rcases List.mem_cons.mp hf with rfl | hf
    · exact ⟨name, v, rfl⟩
    · exact hfs f hf

variable {fs : List Fragment} {U : Var → Prop} {vars : List Var}

theorem joinAll_bindings (h : ∀ f ∈ fs, ∃ name v, f = Fragment.binding name v .trivial) :
    (Fragment.joinAll fs).constraint = .trivial ∧
      ∀ e ∈ (Fragment.joinAll fs).env, ∃ v, e.2 = .var v := by
  refine Fragment.joinAll_induction
    (P := fun f => f.constraint = .trivial ∧ ∀ e ∈ f.env, ∃ v, e.2 = .var v)
    ⟨rfl, fun e he => absurd he List.not_mem_nil⟩ (fun f acc hf hacc => ?_) h
  obtain ⟨name, v, rfl⟩ := hf
  refine ⟨hacc.1, fun e he => ?_⟩
  rcases Assoc.mem_of_mem_union he with he | he
  · obtain rfl := List.mem_singleton.mp he
    exact ⟨v, rfl⟩
  · exact hacc.2 e he

theorem exposed_literal (l : Literal) : (literalType l).Exposed table U := by
  cases l <;> exact .known (Ty.over_app.mpr fun a ha => absurd ha List.not_mem_nil)

theorem spine_curried {result : Ty} (h : result.Over U) :
    (Ty.curried (vars.map Ty.var) result).Spine U := by
  induction vars with
  | nil => exact .known h
  | cons v vars ih => exact .func .var ih

theorem constructor_reveals {name : String} {r : List Ty × Ty} (hr : Builds env name r)
    (henv : ∀ e ∈ env.constructors, e.2.Shows table) {expected : Ty} {span : Span}
    (hU : ∀ w ∈ expected.vars, U w) :
    Constraint.Reveals table (· ∈ vars) U (Constraint.all [.equal expected r.2 span,
      .equal (.curried (vars.map Ty.var) r.2) (.curried r.1 r.2) span]).parts := by
  obtain ⟨⟨c, vs, hget, hlen, hresult⟩, hargs⟩ := hr
  have hshows := henv _ (Assoc.mem_of_get? hget) vs hlen
  refine .equal (.inl ⟨hU, ?_⟩) (.equal (.inr ⟨spine_curried ?_, fun v hv => ?_⟩)
    (.done fun v hv => .inr (.inl ?_)))
  · rw [hresult]
    exact hshows.mono fun _ hv => hv.elim
  · rw [hresult]
    refine Ty.over_app.mpr fun t ht => ?_
    obtain ⟨v, _, rfl⟩ := List.mem_map.mp ht
    exact Ty.over_var.mpr (.inr (.inr (Ty.mem_vars_app.mpr ⟨_, ht, by simp⟩)))
  · rcases mem_vars_curried.mp hv with ⟨t, ht, hv⟩ | hv
    · exact .inr (.inr (hargs t ht v hv))
    · exact .inr (.inr hv)
  · exact mem_vars_curried.mpr (.inl ⟨_, List.mem_map.mpr ⟨v, hv, rfl⟩, by simp⟩)

mutual

theorem pattern_reveals (henv : ∀ e ∈ env.constructors, e.2.Shows table) :
    ∀ (p : Pattern) (expected : Ty) (g : Generator), Walks s (pattern env p expected) g fun f =>
      ∀ U : Var → Prop, (∀ w ∈ expected.vars, U w) → f.Reveals table U
  | ⟨span, form⟩, expected, g => by
    exact patternForm_reveals henv span form expected g

theorem patternForm_reveals (henv : ∀ e ∈ env.constructors, e.2.Shows table) (span : Span) :
    ∀ (p : PatternForm) (expected : Ty) (g : Generator),
      Walks s (patternForm env span p expected) g fun f =>
        ∀ U : Var → Prop, (∀ w ∈ expected.vars, U w) → f.Reveals table U
  | .wildcard, expected, g => by
    exact .pure fun _ _ => .empty
  | .var name, expected, g => by
    exact .bind fresh_walks fun v g1 _ => .pure fun _ U hU => .binding hU
  | .literal value, expected, g => by
    exact .pure fun U hU => .equal (.inl ⟨hU, exposed_literal value⟩)
      (.done fun v hv => by simp at hv)
  | .ctor name args, expected, g => by
    refine .bind (constructor_walks name span) fun r g1 _ => ?_
    refine .bind (freshVars_walks args.length) fun vars g2 _ => ?_
    refine .bind (patterns_reveals henv args (vars.map Ty.var) g2) fun inner g3 _ => .pure ?_
    rintro hinner _ ⟨_, hr⟩ U hU
    refine .after (constructor_reveals hr henv hU) (Fragment.reveals_joinAll (hinner _ ?_))
    intro t ht w hw
    obtain ⟨v, hv, rfl⟩ := List.mem_map.mp ht
    rwa [Ty.mem_vars_var.mp hw]
  | .record fields, expected, g => by
    refine .bind fresh_walks fun ext g1 _ => ?_
    refine .bind (fieldBindings_vars fields) fun fs g2 _ => .pure fun hfs _ U hU => ?_
    obtain ⟨htrivial, hvars⟩ := joinAll_bindings hfs
    refine .after (V := fun v => ∃ e ∈ (Fragment.joinAll fs).env, v ∈ e.2.vars)
      (.equal (.inl ⟨hU, .record fun e he => ?_⟩) (.done fun v hv => ?_)) ?_
    · obtain ⟨v, hv⟩ := hvars e he
      rw [hv]
      exact .var
    · exact .inr (.inr (Ty.mem_vars_record.mpr (.inl hv)))
    · rw [Fragment.Reveals, htrivial]
      exact .done fun v hv => hv
  | .named inner name, expected, g => by
    refine .bind fresh_walks fun v g1 _ => ?_
    refine .bind (pattern_reveals henv inner expected g1) fun f g2 _ => .pure ?_
    exact fun hf _ U hU => .join (.binding hU) (hf U hU)

theorem patterns_reveals (henv : ∀ e ∈ env.constructors, e.2.Shows table) :
    ∀ (ps : List Pattern) (ts : List Ty) (g : Generator), Walks s (patterns env ps ts) g fun fs =>
      ∀ U : Var → Prop, (∀ t ∈ ts, ∀ w ∈ t.vars, U w) → ∀ f ∈ fs, f.Reveals table U
  | [], ts, g => by
    rw [patterns]
    · exact .pure fun _ _ => by simp
    · simp
  | p :: ps, [], g => by
    rw [patterns]
    · exact .pure fun _ _ => by simp
    · simp
  | p :: ps, t :: ts, g => by
    refine .bind (pattern_reveals henv p t g) fun f g1 _ => ?_
    refine .bind (patterns_reveals henv ps ts g1) fun fs g2 _ => .pure ?_
    intro hfs hf U hU f' hf'
    rcases List.mem_cons.mp hf' with rfl | hf'
    · exact hf U (hU t (by simp))
    · exact hfs U (fun u hu => hU u (by simp [hu])) f' hf'

end

/-- What is demanded inside a boundary that binds the parameters of a function, the pattern of a
branch, or the names of a group around its own definitions. -/
inductive Local (env : Environment) : Constraint → Prop where
  | parameters {ps : List Pattern} {ts : List Ty} {g g' : Generator} {fs : List Fragment} :
      patterns env ps ts g = .ok fs g' → Local env (Fragment.joinAll fs).constraint
  | branch {p : Pattern} {t : Ty} {g g' : Generator} {f : Fragment} (span : Span) :
      pattern env p t g = .ok f g' → Local env ((Constraint.checkpoint span).and f.constraint)
  | recursive : Local env .trivial

/-- Nothing is defined inside such a boundary. -/
theorem Local.ne_letIn (henv : ∀ e ∈ env.constructors, e.2.Shows table) {header : Header}
    {defs body : Constraint} : ¬ Local env (.letIn vars header defs body) := by
  suffices ∀ {c}, Local env c → ∀ p ∈ c.parts, p.compares = true from
    fun h => Bool.noConfusion (this h _ List.mem_cons_self)
  intro c h
  cases h with
  | @parameters ps ts g g' fs hrun =>
    have hfs := patterns_reveals (s := g'.store) henv ps ts g
    rw [Walks, hrun] at hfs
    exact (Fragment.reveals_joinAll (hfs.2.2 (.refl _) (fun _ => True)
      fun _ _ _ _ => .intro)).compares
  | @branch p t g g' f span hrun =>
    have hf := pattern_reveals (s := g'.store) henv p t g
    rw [Walks, hrun] at hf
    rw [Constraint.parts_and]
    exact List.forall_mem_cons.mpr
      ⟨rfl, Constraint.Reveals.compares (hf.2.2 (.refl _) (fun _ => True) fun _ _ => .intro)⟩
  | recursive => exact fun p hp => absurd hp List.not_mem_nil

/-- What a group of definitions binds and demands. -/
theorem joinAll_definitions {k : Rank}
    (h : ∀ f ∈ fs, ∃ name v d, f = Fragment.binding name v d ∧ s.Made v k ∧ d.Grounded table s k) :
    (Fragment.joinAll fs).constraint.Grounded table s k ∧
      ∀ e ∈ (Fragment.joinAll fs).env, ∀ v ∈ e.2.vars, s.Made v k := by
  refine Fragment.joinAll_induction
    (P := fun f => f.constraint.Grounded table s k ∧ ∀ e ∈ f.env, ∀ v ∈ e.2.vars, s.Made v k)
    ⟨.trivial, fun e he => absurd he List.not_mem_nil⟩ (fun f acc hf hacc => ?_) h
  obtain ⟨name, v, d, rfl, hv, hd⟩ := hf
  refine ⟨Constraint.grounded_and.mpr ⟨hd, hacc.1⟩, fun e he w hw => ?_⟩
  rcases Assoc.mem_of_mem_union he with he | he
  · obtain rfl := List.mem_singleton.mp he
    rwa [Ty.mem_vars_var.mp hw]
  · exact hacc.2 e he w hw

theorem grounded_group {k : Rank} {c : Constraint}
    (hfs : ∀ f ∈ fs, ∃ name v d, f = Fragment.binding name v d ∧ s.Made v (k + 1) ∧
      d.Grounded table s (k + 1)) (hc : c.Grounded table s k) :
    ((groupScheme fs).around c).Grounded table s k := by
  obtain ⟨hdefs, hmade⟩ := joinAll_definitions hfs
  show Constraint.Grounded table s k (.letIn (Fragment.joinAll fs).vars (Fragment.joinAll fs).env
    (.recursive (Fragment.joinAll fs).env (Fragment.joinAll fs).constraint) c)
  rw [Constraint.recursive]
  split
  · rename_i hnil
    exact .group (.inl (List.isEmpty_iff.mp hnil)) hdefs hc
  · refine .group (.inr ⟨_, rfl⟩) (.boundary (.done fun v hv => ?_) hdefs) hc
    obtain ⟨e, he, hv⟩ := hv
    exact ⟨k + 1, Nat.le_refl _, hmade e he v hv⟩

theorem grounded_carries (henv : ∀ e ∈ env.constructors, e.2.Shows table) :
    Carries env s fun k c => c.Grounded table s k where
  all := Constraint.all_of_parts Constraint.grounded_iff_parts
  checkpoint _ hc := Constraint.grounded_and.mpr ⟨.checkpoint, hc⟩
  equal _ _ := .equal
  instanceOf _ := .instanceOf
  parameters ps vars g _ := (patterns_reveals henv ps _ g).mono fun fs hfs hvars _ hc => by
    refine .boundary (Fragment.reveals_joinAll (hfs _ fun t ht w hw => ?_)) hc
    obtain ⟨v, hv, rfl⟩ := List.mem_map.mp ht
    exact madeBy_var (hvars v hv) w hw
  branch p v span g _ := (pattern_reveals henv p (.var v) g).mono fun f hf hv c hc => by
    refine .boundary ?_ hc
    show Constraint.Reveals table _ _ ((Constraint.checkpoint span).and f.constraint).parts
    rw [Constraint.parts_and]
    exact .checkpoint (hf _ fun w hw => madeBy_var hv w hw)
  group := grounded_group

end Generate
end TypeSolver
