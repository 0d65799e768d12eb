import Mathlib
import TypeSolver.Proofs.Generated

/-!
# TypeSolver.Proofs.Names

Which names a program may use, and which fatal error it gets when it uses another one. `unbound`
lists the variables of a program that no definition, pattern or import around them binds, and
`constructors` the constructors that its patterns name, without any types. Both walks of inference
are compared with them: the constraint of a program asks for the unbound names of the program
(`expr_checked`), and the solver comes to a fatal error if and only if the constraint asks for one
(`Solver.solve_scoped`).
-/

namespace TypeSolver

abbrev Occurrence := String × Span

/-! ## Names in patterns -/

mutual

def Pattern.names : Pattern → List String
  | ⟨_, form⟩ => form.names

def PatternForm.names : PatternForm → List String
  | .wildcard => []
  | .var name => [name]
  | .literal _ => []
  | .ctor _ args => patternNames args
  | .record fields => fields
  | .named inner name => name :: inner.names

def patternNames : List Pattern → List String
  | [] => []
  | p :: ps => p.names ++ patternNames ps

end

mutual

/-- The constructors that a pattern names. -/
def Pattern.constructors : Pattern → List Occurrence
  | ⟨span, form⟩ => form.constructors span

def PatternForm.constructors (span : Span) : PatternForm → List Occurrence
  | .wildcard => []
  | .var _ => []
  | .literal _ => []
  | .ctor name args => (name, span) :: patternConstructors args
  | .record _ => []
  | .named inner _ => inner.constructors

def patternConstructors : List Pattern → List Occurrence
  | [] => []
  | p :: ps => p.constructors ++ patternConstructors ps

end

/-! ## Names in expressions -/

mutual

def Expr.constructors : Expr → List Occurrence
  | ⟨_, _, form⟩ => form.constructors

def ExprForm.constructors : ExprForm → List Occurrence
  | .literal _ => []
  | .var _ => []
  | .lambda params body => patternConstructors params ++ body.constructors
  | .apply func args => func.constructors ++ exprConstructors args
  | .letIn defs body => defConstructors defs ++ body.constructors
  | .case scrutinee branches => scrutinee.constructors ++ branchConstructors branches
  | .ite cond onTrue onFalse => cond.constructors ++ onTrue.constructors ++ onFalse.constructors
  | .list items => exprConstructors items
  | .record fields => fieldConstructors fields
  | .access record _ => record.constructors
  | .update record fields => record.constructors ++ fieldConstructors fields

def exprConstructors : List Expr → List Occurrence
  | [] => []
  | e :: es => e.constructors ++ exprConstructors es

def fieldConstructors : List Field → List Occurrence
  | [] => []
  | ⟨_, value⟩ :: fs => value.constructors ++ fieldConstructors fs

def branchConstructors : List Branch → List Occurrence
  | [] => []
  | ⟨p, body, _⟩ :: bs => p.constructors ++ body.constructors ++ branchConstructors bs

def defConstructors : List Def → List Occurrence
  | [] => []
  | ⟨_, params, body, _⟩ :: ds =>
    patternConstructors params ++ body.constructors ++ defConstructors ds

end

def defNames (ds : List Def) : List String := ds.map Def.name

mutual

/-- The variables of an expression that are neither in `scope` nor bound inside the expression
around them. -/
def Expr.unbound (scope : List String) : Expr → List Occurrence
  | ⟨_, span, form⟩ => form.unbound scope span

def ExprForm.unbound (scope : List String) (span : Span) : ExprForm → List Occurrence
  | .literal _ => []
  | .var name => if name ∈ scope then [] else [(name, span)]
  | .lambda params body => body.unbound (patternNames params ++ scope)
  | .apply func args => func.unbound scope ++ unboundExprs scope args
  | .letIn defs body =>
    unboundDefs (defNames defs ++ scope) defs ++ body.unbound (defNames defs ++ scope)
  | .case scrutinee branches => scrutinee.unbound scope ++ unboundBranches scope branches
  | .ite cond onTrue onFalse =>
    cond.unbound scope ++ onTrue.unbound scope ++ onFalse.unbound scope
  | .list items => unboundExprs scope items
  | .record fields => unboundFields scope fields
  | .access record _ => record.unbound scope
  | .update record fields => record.unbound scope ++ unboundFields scope fields

def unboundExprs (scope : List String) : List Expr → List Occurrence
  | [] => []
  | e :: es => e.unbound scope ++ unboundExprs scope es

def unboundFields (scope : List String) : List Field → List Occurrence
  | [] => []
  | ⟨_, value⟩ :: fs => value.unbound scope ++ unboundFields scope fs

/-- The names of a pattern are in scope in the body of its branch. -/
def unboundBranches (scope : List String) : List Branch → List Occurrence
  | [] => []
  | ⟨p, body, _⟩ :: bs => body.unbound (p.names ++ scope) ++ unboundBranches scope bs

/-- The names of its parameters are in scope in the body of a definition. -/
def unboundDefs (scope : List String) : List Def → List Occurrence
  | [] => []
  | ⟨_, params, body, _⟩ :: ds =>
    body.unbound (patternNames params ++ scope) ++ unboundDefs scope ds

end

/-- Each group is in scope in itself and in the groups after it. -/
def unboundGroups (scope : List String) : List Group → List Occurrence
  | [] => []
  | g :: gs => unboundDefs (defNames g.defs ++ scope) g.defs ++
      unboundGroups (defNames g.defs ++ scope) gs

def Program.constructors (p : Program) : List Occurrence :=
  p.groups.flatMap fun g => defConstructors g.defs

def Program.unbound (scope : List String) (p : Program) : List Occurrence :=
  unboundGroups scope p.groups

def Environment.names (env : Environment) : List String :=
  Assoc.keys env.constructors ++ Assoc.keys env.values

/-! ## Names in constraints -/

namespace Constraint

mutual

/-- The names that a constraint asks for, and that are neither in `scope` nor bound inside the
constraint around the demand. -/
def unbound (scope : List String) : Constraint → List Occurrence
  | .trivial => []
  | .checkpoint _ => []
  | .equal _ _ _ => []
  | .conj items => unboundAll scope items
  | .letIn _ header defs body => defs.unbound scope ++ body.unbound (Assoc.keys header ++ scope)
  | .instanceOf name _ span => if name ∈ scope then [] else [(name, span)]

def unboundAll (scope : List String) : List Constraint → List Occurrence
  | [] => []
  | c :: cs => c.unbound scope ++ unboundAll scope cs

end

theorem unboundAll_eq (scope : List String) (cs : List Constraint) :
    unboundAll scope cs = cs.flatMap (unbound scope) := by
  induction cs with
  | nil => rfl
  | cons c cs ih => rw [unboundAll, ih, List.flatMap_cons]

variable {scope scope' : List String} {c d : Constraint}

theorem unbound_congr (h : ∀ x, x ∈ scope ↔ x ∈ scope') : c.unbound scope = c.unbound scope' := by
  induction c generalizing scope scope' with
  | conj items ih =>
    rw [unbound, unbound, unboundAll_eq, unboundAll_eq]
    exact List.flatMap_congr fun c hc => ih c hc h
  | letIn vars header defs body ihd ihb =>
    have hbody : ∀ x, x ∈ Assoc.keys header ++ scope ↔ x ∈ Assoc.keys header ++ scope' := by
      simp [h]
    rw [unbound, unbound, ihd h, ihb hbody]
  | instanceOf name ty span => simp only [unbound, h]
  | _ => rfl

theorem unbound_eq_parts (scope : List String) (c : Constraint) :
    c.unbound scope = c.parts.flatMap (unbound scope) := by
  cases c with
  | conj items => exact unboundAll_eq scope items
  | _ => simp [parts, unbound]

@[simp] theorem unbound_and : (c.and d).unbound scope = c.unbound scope ++ d.unbound scope := by
  rw [unbound_eq_parts, parts_and, List.flatMap_append, ← unbound_eq_parts, ← unbound_eq_parts]

@[simp] theorem unbound_all (cs : List Constraint) :
    (all cs).unbound scope = cs.flatMap (unbound scope) := by
  suffices ∀ acc, (cs.foldl and acc).unbound scope = acc.unbound scope ++ cs.flatMap (unbound scope) by
    rw [all, this]; rfl
  induction cs with
  | nil => simp
  | cons c cs ih => intro acc; rw [List.foldl_cons, ih]; simp

@[simp] theorem unbound_recursive (header : Header) :
    (recursive header c).unbound scope = c.unbound (Assoc.keys header ++ scope) := by
  rw [recursive]
  split
  · rename_i hempty
    rw [List.isEmpty_iff.mp hempty]
    rfl
  · simp [unbound]

end Constraint

namespace Solver

def Covers (ctx : Context) (scope : List String) : Prop :=
  ∀ name, name ∈ scope ↔ ∃ scheme u, Assoc.get? ctx name = some scheme ∧
    scheme.typeOf? name = some u

variable {ctx : Context} {scope : List String}

theorem get?_bindNames (ctx : Context) (header : Header) (scheme : Scheme) (name : String) :
    Assoc.get? (bindNames ctx header scheme) name =
      if name ∈ Assoc.keys header then some scheme else Assoc.get? ctx name := by
  rw [bindNames]
  generalize Assoc.keys header = names
  induction names generalizing ctx with
  | nil => rfl
  | cons x xs ih =>
    rw [List.foldl_cons, ih]
    by_cases hxs : name ∈ xs
    · rw [if_pos hxs, if_pos (List.mem_cons_of_mem x hxs)]
    · simp [hxs]

theorem Covers.bindNames (h : Covers ctx scope) {header : Header} {scheme : Scheme}
    (hheader : scheme.header = header) :
    Covers (bindNames ctx header scheme) (Assoc.keys header ++ scope) := by
  intro name
  rw [get?_bindNames, List.mem_append, h name]
  by_cases hname : name ∈ Assoc.keys header
  · refine iff_of_true (.inl hname) ⟨scheme, ?_⟩
    rw [if_pos hname, Scheme.typeOf?, hheader]
    cases hget : Assoc.get? header name with
    | none => exact absurd hname (Assoc.get?_eq_none_iff.mp hget)
    | some u => exact ⟨u, rfl, rfl⟩
  · rw [if_neg hname]
    exact or_iff_right hname

end Solver

namespace Run

variable {α β : Type} {asked asked' : List Occurrence}

/-- How a run ends that asks for the names `asked` without a type: with a fatal error about one of
them, if there are any. -/
def Scoped (asked : List Occurrence) : Run α → Prop
  | .done _ _ => asked = []
  | .fatal e _ => ∃ o ∈ asked, e = .unboundName o.1 o.2
  | .outOfFuel => True

theorem Scoped.andThen {r : Run α} {f : α → Solver → Run β} (h : r.Scoped asked)
    (hf : ∀ a st, r = .done a st → (f a st).Scoped asked') :
    (r.andThen f).Scoped (asked ++ asked') := by
  cases r with
  | done a st =>
    obtain rfl : asked = [] := h
    exact hf a st rfl
  | fatal e st =>
    obtain ⟨o, ho, he⟩ := h
    exact ⟨o, List.mem_append_left _ ho, he⟩
  | outOfFuel => exact .intro

theorem Scoped.restore {r : Run Unit} (h : r.Scoped asked) (saved : Option Span) :
    (r.restore saved).Scoped asked := by
  cases r with
  | done => exact h
  | fatal => exact h
  | outOfFuel => exact .intro

end Run

namespace Solver

variable {ctx : Context} {scope : List String}

theorem equate_scoped (st : Solver) (fuel : Nat) (expected actual : Ty) (span : Span) :
    (st.equate fuel expected actual span).Scoped [] := by
  rw [equate]
  split
  · exact rfl
  · exact rfl
  · exact .intro

theorem equateInstance_scoped (h : Covers ctx scope) (st : Solver) (fuel : Nat) (name : String)
    (t : Ty) (span : Span) : (st.equateInstance fuel ctx name t span).Scoped
      (if name ∈ scope then [] else [(name, span)]) := by
  rw [equateInstance]
  by_cases hname : name ∈ scope
  · obtain ⟨scheme, u, hscheme, hu⟩ := (h name).mp hname
    simp only [hscheme, hu, if_pos hname]
    split
    · exact .intro
    · exact equate_scoped _ fuel t _ span
  · rw [if_neg hname]
    have hfatal : (Run.fatal (.unboundName name span) st : Run Unit).Scoped [(name, span)] :=
      ⟨(name, span), List.mem_singleton_self _, rfl⟩
    split
    · exact hfatal
    · rename_i scheme hscheme
      split
      · exact hfatal
      · rename_i u hu
        exact absurd ((h name).mpr ⟨scheme, u, hscheme, hu⟩) hname

theorem solve_scoped (h : Covers ctx scope) (fuel : Nat) (c : Constraint) (st : Solver) :
    (solve fuel ctx c st).Scoped (c.unbound scope) := by
  induction c generalizing ctx scope st with
  | trivial => exact rfl
  | checkpoint span => exact rfl
  | equal expected actual span => exact equate_scoped st fuel expected actual span
  | instanceOf name t span => exact equateInstance_scoped h st fuel name t span
  | conj items ih =>
    have hall : ∀ st, (solveAll fuel ctx items st).Scoped (Constraint.unboundAll scope items) := by
      induction items with
      | nil => intro st; exact rfl
      | cons c cs ihcs =>
        intro st
        exact (ih c (.head _) h st).andThen fun _ st' _ =>
          ihcs (fun d hd => ih d (List.mem_cons_of_mem c hd)) st'
    exact (hall st).restore _
  | letIn vars header defs body ihd ihb =>
    rw [solve_letIn, Constraint.unbound]
    have hdefs := ihd h st.enter
    have hleave : (leave ctx st.rank vars header defs (solve fuel ctx defs st.enter)).Scoped
        (defs.unbound scope) := by
      generalize solve fuel ctx defs st.enter = r at hdefs ⊢
      cases r with
      | done => exact hdefs
      | fatal => exact hdefs
      | outOfFuel => exact .intro
    refine hleave.andThen fun ctx' st' heq => (ihb ?_ _).restore _
    generalize solve fuel ctx defs st.enter = r at heq
    cases r with
    | done _ st1 =>
      cases heq
      exact h.bindNames rfl
    | fatal => cases heq
    | outOfFuel => cases heq

end Solver

/-! ## Fragments -/

/-- The constraint asks for the names that `asked` lists, given the names in scope. -/
def Constraint.Asks (asked : List String → List Occurrence) (c : Constraint) : Prop :=
  ∀ scope o, o ∈ c.unbound scope ↔ o ∈ asked scope

namespace Constraint

theorem asks_trivial : Asks (fun _ => []) .trivial := fun _ _ => Iff.rfl

variable {span : Span}

theorem asks_equal {expected actual : Ty} :
    Asks (fun _ => []) (.equal expected actual span) := fun _ _ => Iff.rfl

theorem asks_checkpoint : Asks (fun _ => []) (.checkpoint span) := fun _ _ => Iff.rfl

theorem Asks.and {asked asked' : List String → List Occurrence} {c d : Constraint}
    (hc : c.Asks asked) (hd : d.Asks asked') :
    (c.and d).Asks fun scope => asked scope ++ asked' scope := fun scope o => by
  rw [unbound_and, List.mem_append, hc, hd, List.mem_append]

/-- The constraints together ask for the names that `asked` lists. -/
def AskAll (asked : List String → List Occurrence) (cs : List Constraint) : Prop :=
  ∀ scope o, o ∈ cs.flatMap (unbound scope) ↔ o ∈ asked scope

namespace AskAll

variable {asked asked' : List String → List Occurrence} {c : Constraint} {cs : List Constraint}

theorem nil : AskAll (fun _ => []) [] := fun _ _ => Iff.rfl

theorem single (h : c.Asks asked) : AskAll asked [c] := fun scope o => by
  rw [List.flatMap_singleton, h]

theorem cons (hc : c.Asks asked) (h : AskAll asked' cs) :
    AskAll (fun scope => asked scope ++ asked' scope) (c :: cs) := fun scope o => by
  rw [List.flatMap_cons, List.mem_append, hc, h, List.mem_append]

theorem all (h : AskAll asked cs) : (all cs).Asks asked := fun scope o => by
  rw [unbound_all, h]

theorem all_equal (h : AskAll asked cs) {expected actual : Ty} :
    (Constraint.all (cs ++ [.equal expected actual span])).Asks asked := fun scope o => by
  rw [unbound_all, List.flatMap_append, List.mem_append, h]
  exact or_iff_left nofun

end AskAll

end Constraint

namespace Fragment

/-- The fragment binds the names of `names`, and asks for those that `asked` lists. -/
structure Gives (names : List String) (asked : List String → List Occurrence) (f : Fragment) :
    Prop where
  names : ∀ name, name ∈ Assoc.keys f.env ↔ name ∈ names
  asks : f.constraint.Asks asked

/-- What fragments in order bind and ask for. -/
inductive GiveAll : List String → (List String → List Occurrence) → List Fragment → Prop where
  | nil : GiveAll [] (fun _ => []) []
  | cons {names names' : List String} {asked asked' : List String → List Occurrence} {f : Fragment}
      {fs : List Fragment} : f.Gives names asked → GiveAll names' asked' fs →
      GiveAll (names ++ names') (fun scope => asked scope ++ asked' scope) (f :: fs)

variable {names names' : List String} {asked asked' : List String → List Occurrence}
  {f g : Fragment}

variable {c : Constraint}

theorem Gives.demand (h : c.Asks asked) (vars : List Var) :
    Gives [] asked { vars := vars, constraint := c } := ⟨fun _ => Iff.rfl, h⟩

theorem Gives.binding {name : String} {v : Var} (h : c.Asks asked) :
    (binding name v c).Gives [name] asked :=
  ⟨fun x => by simp [Fragment.binding, Assoc.keys], h⟩

theorem Gives.join (hf : f.Gives names asked) (hg : g.Gives names' asked') :
    (f.join g).Gives (names ++ names') fun scope => asked scope ++ asked' scope := by
  refine ⟨fun name => ?_, fun scope o => ?_⟩
  · rw [Fragment.join, Assoc.mem_keys_union, hf.names, hg.names, List.mem_append]
  · rw [Fragment.join, Constraint.unbound_and, List.mem_append, hf.asks, hg.asks, List.mem_append]

theorem GiveAll.joinAll {fs : List Fragment} (h : GiveAll names asked fs) :
    (joinAll fs).Gives names asked := by
  suffices ∀ {names' asked'} {acc : Fragment}, acc.Gives names' asked' →
      (fs.foldl (fun acc f => f.join acc) acc).Gives (names' ++ names)
        fun scope => asked' scope ++ asked scope from
    this (.demand Constraint.asks_trivial [])
  induction h with
  | nil =>
    intro names' asked' acc hacc
    exact ⟨fun name => by rw [List.append_nil]; exact hacc.names name,
      fun scope o => by rw [List.append_nil]; exact hacc.asks scope o⟩
  | cons hf _ ih =>
    intro names' asked' acc hacc
    have hrest := ih (hf.join hacc)
    refine ⟨fun name => (hrest.names name).trans ?_, fun scope o => (hrest.asks scope o).trans ?_⟩
    · simp only [List.mem_append, or_assoc, or_left_comm]
    · simp only [List.mem_append, or_assoc, or_left_comm]

theorem Gives.around (hf : f.Gives names asked) (hc : c.Asks asked') :
    (f.toScheme.around c).Asks fun scope => asked scope ++ asked' (names ++ scope) := by
  intro scope o
  show o ∈ f.constraint.unbound scope ++ c.unbound (Assoc.keys f.env ++ scope) ↔ _
  have hscope : ∀ x, x ∈ Assoc.keys f.env ++ scope ↔ x ∈ names ++ scope := by simp [hf.names]
  rw [c.unbound_congr hscope, List.mem_append, hf.asks, hc, List.mem_append]

end Fragment

/-! ## The walk over a program -/

/-- Each constructor can be read with variables for its parameters. -/
def Environment.Readable (env : Environment) : Prop :=
  ∀ e ∈ env.constructors, ∀ vars : List Var, vars.length = e.2.params.length →
    ∃ ts, Signature.toTyList (assignment e.2.params vars) e.2.args = .ok ts

theorem Store.freshNamed_length (rank : Rank) (names : List String) (s : Store) :
    (s.freshNamed rank names).1.length = names.length := by
  induction names generalizing s with
  | nil => rfl
  | cons name names ih => exact congrArg (· + 1) (ih _)

namespace Generate

variable {α β : Type} {env : Environment}

/-- A part of the walk that comes upon the constructors `named`. It fails if and only if one of them
is unknown; otherwise `Q` holds of its result. -/
def Checked (env : Environment) (m : Generate α) (named : List Occurrence) (Q : α → Prop) : Prop :=
  ∀ g, match m g with
    | .ok a _ => (∀ o ∈ named, o.1 ∈ Assoc.keys env.constructors) ∧ Q a
    | .error e _ => ∃ o ∈ named, o.1 ∉ Assoc.keys env.constructors ∧ e = .unknownConstructor o.1 o.2

namespace Checked

variable {m : Generate α} {f : α → Generate β} {named named' : List Occurrence} {Q Q' : α → Prop}
  {R : β → Prop}

theorem pure {a : α} (h : Q a) : Checked env (pure a) [] Q := fun _ => ⟨nofun, h⟩

theorem bind (h : Checked env m named Q) (hf : ∀ a, Q a → Checked env (f a) named' R) :
    Checked env (m >>= f) (named ++ named') R := by
  intro g
  have hm := h g
  show match EStateM.bind m f g with
    | .ok a _ => _
    | .error e _ => _
  rw [EStateM.bind.eq_def]
  cases hrun : m g with
  | error e g' =>
    rw [hrun] at hm
    obtain ⟨o, ho, hrest⟩ := hm
    exact ⟨o, List.mem_append_left _ ho, hrest⟩
  | ok a g' =>
    rw [hrun] at hm
    have hrest := hf a hm.2 g'
    simp only
    split
    · rename_i b g'' hb
      rw [hb] at hrest
      exact ⟨fun o ho => (List.mem_append.mp ho).elim (hm.1 o) (hrest.1 o), hrest.2⟩
    · rename_i e g'' he
      rw [he] at hrest
      obtain ⟨o, ho, hrest⟩ := hrest
      exact ⟨o, List.mem_append_right _ ho, hrest⟩

theorem mono (h : Checked env m named Q) (hQ : ∀ a, Q a → Q' a) : Checked env m named Q' := by
  intro g
  have hm := h g
  split
  · rename_i a g' ha
    rw [ha] at hm
    exact ⟨hm.1, hQ a hm.2⟩
  · rename_i e g' he
    rw [he] at hm
    exact hm

theorem map {h : α → β} (hm : Checked env m named Q) (hR : ∀ a, Q a → R (h a)) :
    Checked env (m >>= fun a => Pure.pure (h a)) named R := by
  simpa using hm.bind fun a ha => pure (hR a ha)

theorem nested (h : Checked env m named Q) : Checked env (nested m) named Q := by
  intro g
  have hm := h { g with rank := g.rank + 1 }
  rw [Generate.nested]
  cases hrun : m { g with rank := g.rank + 1 } with
  | ok a g' => rw [hrun] at hm; exact hm
  | error e g' => rw [hrun] at hm; exact hm

end Checked

theorem fresh_checked : Checked env fresh [] fun _ => True := fun _ => ⟨nofun, .intro⟩

theorem freshType_checked : Checked env freshType [] fun _ => True := fresh_checked.map fun _ h => h

theorem freshVars_checked (n : Nat) : Checked env (freshVars n) [] fun vs => vs.length = n := by
  induction n with
  | zero => exact .pure rfl
  | succ n ih => exact fresh_checked.bind fun _ _ => ih.map fun _ h => congrArg (· + 1) h

theorem constructor_checked (henv : env.Readable) (name : String) (span : Span) :
    Checked env (constructor env name span) [(name, span)] fun _ => True := by
  intro g
  rw [constructor, Environment.instantiateConstructor]
  cases hget : Assoc.get? env.constructors name with
  | none => exact ⟨(name, span), List.mem_singleton_self _, Assoc.get?_eq_none_iff.mp hget, rfl⟩
  | some c =>
    have hlen := Store.freshNamed_length g.rank c.params g.store
    obtain ⟨ts, hts⟩ := henv (name, c) (Assoc.mem_of_get? hget) _ hlen
    simp only [hts]
    refine ⟨fun o ho => ?_, .intro⟩
    obtain rfl := List.mem_singleton.mp ho
    exact List.mem_map.mpr ⟨_, Assoc.mem_of_get? hget, rfl⟩

theorem fieldBindings_checked (names : List String) : Checked env (fieldBindings names) [] fun fs =>
    Fragment.GiveAll names (fun _ => []) fs := by
  induction names with
  | nil => exact .pure .nil
  | cons name names ih =>
    exact fresh_checked.bind fun v _ => ih.map fun fs h =>
      .cons (.binding Constraint.asks_trivial) h

section Walk

variable (henv : env.Readable)

include henv

set_option linter.unusedSectionVars false in
mutual

theorem pattern_checked : ∀ (p : Pattern) (expected : Ty),
    Checked env (pattern env p expected) p.constructors (Fragment.Gives p.names fun _ => [])
  | ⟨span, form⟩, expected => by
    exact patternForm_checked span form expected

theorem patternForm_checked (span : Span) : ∀ (p : PatternForm) (expected : Ty),
    Checked env (patternForm env span p expected) (p.constructors span)
      (Fragment.Gives p.names fun _ => [])
  | .wildcard, expected => by
    exact .pure (.demand Constraint.asks_trivial [])
  | .var name, expected => by
    exact fresh_checked.map fun v _ => .binding Constraint.asks_equal
  | .literal value, expected => by
    exact .pure (.demand Constraint.asks_equal [])
  | .ctor name args, expected => by
    refine (constructor_checked henv name span).bind fun ⟨params, result⟩ _ =>
      (freshVars_checked args.length).bind fun vars hvars => ?_
    have hlen : args.length = (vars.map Ty.var).length := by rw [List.length_map, hvars]
    refine (patterns_checked args _ hlen).map fun fs hfs => ?_
    exact (Fragment.Gives.demand (Constraint.asks_equal.and Constraint.asks_equal) vars).join
      hfs.joinAll
  | .record fields, expected => by
    refine fresh_checked.bind fun ext _ => (fieldBindings_checked fields).map fun fs hfs => ?_
    exact (Fragment.Gives.demand Constraint.asks_equal [ext]).join hfs.joinAll
  | .named inner name, expected => by
    refine fresh_checked.bind fun v _ => (pattern_checked inner expected).map fun f hf => ?_
    exact (Fragment.Gives.binding Constraint.asks_equal).join hf

theorem patterns_checked : ∀ (ps : List Pattern) (ts : List Ty), ps.length = ts.length →
    Checked env (patterns env ps ts) (patternConstructors ps)
      (Fragment.GiveAll (patternNames ps) fun _ => [])
  | [], ts, _ => by
    exact .pure .nil
  | p :: ps, [], h => by cases h
  | p :: ps, t :: ts, h => by
    exact (pattern_checked p t).bind fun f hf =>
      (patterns_checked ps ts (Nat.succ.inj h)).map fun fs hfs => .cons hf hfs

end

variable {asked : List String → List Occurrence}

theorem function_checked {params : List Pattern} {body : Ty → Generate Constraint}
    {named : List Occurrence} (hbody : ∀ t, Checked env (body t) named (Constraint.Asks asked))
    (span : Span) (expected : Ty) :
    Checked env (function env params span expected body) (patternConstructors params ++ named)
      (Constraint.Asks fun scope => asked (patternNames params ++ scope)) := by
  rw [function]
  split
  · rename_i hempty
    rw [List.isEmpty_iff.mp hempty]
    exact hbody expected
  · refine (freshVars_checked params.length).bind fun vars hvars => freshType_checked.bind
      fun ret _ => ?_
    have hlen : params.length = (vars.map Ty.var).length := by rw [List.length_map, hvars]
    refine (patterns_checked henv params _ hlen).nested.bind fun fs hfs =>
      (hbody ret).map fun c hc => ?_
    exact (Constraint.AskAll.single (hfs.joinAll.around hc)).all_equal

omit henv in
theorem asks_group {names : List String} {asked' : List String → List Occurrence}
    {fs : List Fragment} {c : Constraint} (hfs : Fragment.GiveAll names asked fs)
    (hc : c.Asks asked') : ((groupScheme fs).around c).Asks fun scope =>
      asked (names ++ scope) ++ asked' (names ++ scope) := by
  obtain ⟨hnames, hasks⟩ := hfs.joinAll
  have hgroup : Fragment.Gives names (fun scope => asked (names ++ scope))
      { Fragment.joinAll fs with
        constraint := .recursive (Fragment.joinAll fs).env (Fragment.joinAll fs).constraint } := by
    refine ⟨hnames, fun scope o => ?_⟩
    have hscope : ∀ x, x ∈ Assoc.keys (Fragment.joinAll fs).env ++ scope ↔ x ∈ names ++ scope := by
      simp [hnames]
    rw [Constraint.unbound_recursive, Constraint.unbound_congr hscope, hasks]
  exact hgroup.around hc

omit henv in
theorem fieldTypes_checked (fs : List Field) (types : List (String × Ty)) :
    Checked env (fieldTypes fs types) [] fun types' =>
      (∀ name ∈ Assoc.keys types, name ∈ Assoc.keys types') ∧
        ∀ f ∈ fs, f.name ∈ Assoc.keys types' := by
  induction fs generalizing types with
  | nil => exact .pure ⟨fun _ h => h, nofun⟩
  | cons f fs ih =>
    obtain ⟨name, value⟩ := f
    rw [fieldTypes]
    split
    · rename_i hcontains
      refine (ih types).mono fun types' h => ⟨h.1, fun f hf => ?_⟩
      rcases List.mem_cons.mp hf with rfl | hf
      · exact h.1 _ (Assoc.contains_eq_true_iff.mp hcontains)
      · exact h.2 f hf
    · refine freshType_checked.bind fun t _ => (ih _).mono fun types' h => ⟨?_, ?_⟩
      · exact fun x hx => h.1 x (Assoc.mem_keys_insert.mpr (.inr hx))
      · intro f hf
        rcases List.mem_cons.mp hf with rfl | hf
        · exact h.1 _ (Assoc.mem_keys_insert.mpr (.inl rfl))
        · exact h.2 f hf

set_option linter.unusedSectionVars false in
mutual

theorem expr_checked : ∀ (e : Expr) (expected : Ty),
    Checked env (expr env e expected) e.constructors (Constraint.Asks fun scope => e.unbound scope)
  | ⟨id, span, form⟩, expected => by
    have hnote : Checked env (note id expected) [] fun _ => True := fun _ => ⟨nofun, .intro⟩
    exact hnote.bind fun _ _ => exprForm_checked span form expected

theorem exprForm_checked (span : Span) : ∀ (e : ExprForm) (expected : Ty),
    Checked env (exprForm env span e expected) e.constructors
      (Constraint.Asks fun scope => e.unbound scope span)
  | .literal value, expected => by
    exact .pure Constraint.asks_equal
  | .var name, expected => by
    exact .pure fun scope o => Iff.rfl
  | .lambda params body, expected => by
    exact function_checked henv (expr_checked body) span expected
  | .apply func args, expected => by
    refine (freshVars_checked args.length).bind fun vars hvars => ?_
    have hlen : args.length = (vars.map Ty.var).length := by rw [List.length_map, hvars]
    exact (expr_checked func _).bind fun c hc => (exprs_checked args _ hlen).map fun cs hcs =>
      (Constraint.AskAll.cons hc hcs).all
  | .letIn defs body, expected => by
    exact (definitions_checked defs).nested.bind fun fs hfs =>
      (expr_checked body expected).map fun c hc => asks_group hfs hc
  | .case scrutinee bs, expected => by
    exact freshType_checked.bind fun subject _ => (expr_checked scrutinee subject).bind fun c hc =>
      (branches_checked subject expected bs).map fun cs hcs => (Constraint.AskAll.cons hc hcs).all
  | .ite cond onTrue onFalse, expected => by
    rw [exprForm, ExprForm.constructors, List.append_assoc]
    refine (expr_checked cond _).bind fun c hc => (expr_checked onTrue expected).bind fun d hd =>
      (expr_checked onFalse expected).map fun e he => ?_
    exact (hc.and hd).and he
  | .list items, expected => by
    refine freshType_checked.bind fun elem _ => ?_
    exact (exprs_checked items _ (by simp)).map fun cs hcs => hcs.all_equal
  | .record fs, expected => by
    exact (fields_checked fs).map fun _ hcs => hcs.all_equal
  | .access record field, expected => by
    exact fresh_checked.bind fun ext _ => expr_checked record _
  | .update record fs, expected => by
    refine fresh_checked.bind fun ext _ => (fieldTypes_checked fs []).bind fun types htypes => ?_
    have hlen : fs.length = (fs.filterMap fun f => Assoc.get? types f.name).length := by
      rw [List.length_filterMap_eq_countP, eq_comm, List.countP_eq_length]
      intro f hf
      rw [Option.isSome_iff_ne_none]
      exact fun hnone => Assoc.get?_eq_none_iff.mp hnone (htypes.2 f hf)
    exact (expr_checked record _).bind fun c hc => (fieldValues_checked fs _ hlen).map fun cs hcs =>
      (Constraint.AskAll.cons hc hcs).all_equal

theorem exprs_checked : ∀ (es : List Expr) (ts : List Ty), es.length = ts.length →
    Checked env (exprs env es ts) (exprConstructors es)
      (Constraint.AskAll fun scope => unboundExprs scope es)
  | [], _, _ => .pure .nil
  | e :: es, [], h => by cases h
  | e :: es, t :: ts, h => by
    exact (expr_checked e t).bind fun c hc =>
      (exprs_checked es ts (Nat.succ.inj h)).map fun cs hcs => .cons hc hcs

theorem fieldValues_checked : ∀ (fs : List Field) (ts : List Ty), fs.length = ts.length →
    Checked env (fieldValues env fs ts) (fieldConstructors fs)
      (Constraint.AskAll fun scope => unboundFields scope fs)
  | [], _, _ => .pure .nil
  | f :: fs, [], h => by cases h
  | ⟨name, value⟩ :: fs, t :: ts, h => by
    exact (expr_checked value t).bind fun c hc =>
      (fieldValues_checked fs ts (Nat.succ.inj h)).map fun cs hcs => .cons hc hcs

theorem fields_checked : ∀ (fs : List Field),
    Checked env (fields env fs) (fieldConstructors fs) fun r =>
      Constraint.AskAll (fun scope => unboundFields scope fs) r.2
  | [] => .pure .nil
  | ⟨name, value⟩ :: fs => by
    exact freshType_checked.bind fun t _ => (expr_checked value t).bind fun c hc =>
      (fields_checked fs).map fun r hcs => .cons hc hcs

theorem branches_checked (subject expected : Ty) : ∀ (bs : List Branch),
    Checked env (branches env subject expected bs) (branchConstructors bs)
      (Constraint.AskAll fun scope => unboundBranches scope bs)
  | [] => .pure .nil
  | ⟨p, body, span⟩ :: bs => by
    rw [branches, branchConstructors, List.append_assoc]
    refine (pattern_checked henv p subject).nested.bind fun f hf =>
      (expr_checked body expected).bind fun c hc =>
        (branches_checked subject expected bs).map fun cs hcs => .cons ?_ hcs
    have hpattern : Fragment.Gives p.names (fun _ => [])
        { f with constraint := (Constraint.checkpoint span).and f.constraint } :=
      ⟨hf.names, Constraint.asks_checkpoint.and hf.asks⟩
    exact hpattern.around (Constraint.asks_checkpoint.and hc)

theorem definitions_checked : ∀ (ds : List Def),
    Checked env (definitions env ds) (defConstructors ds)
      (Fragment.GiveAll (defNames ds) fun scope => unboundDefs scope ds)
  | [] => .pure .nil
  | ⟨name, params, body, span⟩ :: ds => by
    exact fresh_checked.bind fun v _ =>
      (function_checked henv (expr_checked body) span (.var v)).bind fun c hc =>
        (definitions_checked ds).map fun fs hfs =>
          .cons (.binding (Constraint.asks_checkpoint.and hc)) hfs

end

theorem groups_checked (gs : List Group) :
    Checked env (groups env gs) (gs.flatMap fun g => defConstructors g.defs) fun schemes =>
      (schemes.foldr Scheme.around .trivial).Asks fun scope => unboundGroups scope gs := by
  induction gs with
  | nil => exact .pure Constraint.asks_trivial
  | cons g gs ih =>
    exact (definitions_checked henv g.defs).nested.bind fun fs hfs =>
      ih.map fun schemes hschemes => asks_group hfs hschemes

theorem program_checked (p : Program) :
    Checked env (program env p) p.constructors (Constraint.Asks fun scope => p.unbound scope) :=
  (groups_checked henv p.groups).map fun _ h => h

end Walk

end Generate

/-! ## Environments -/

namespace Signature

variable {x : String}

variable {name : String} {ret sig : Signature} {args : List Signature}

theorem mem_noteName {names : List String} : x ∈ noteName names name ↔ x ∈ names ∨ x = name := by
  rw [noteName]
  split
  · rename_i hname
    exact ⟨.inl, fun h => h.elim id fun hx => hx ▸ hname⟩
  · simp

section Lists

variable {args : List Signature} {fields : List (String × Signature)}

theorem mem_noteVarsList (h : ∀ a ∈ args, ∀ names, x ∈ noteVars names a ↔ x ∈ names ∨ x ∈ a.freeVars)
    (names : List String) :
    x ∈ noteVarsList names args ↔ x ∈ names ∨ ∃ a ∈ args, x ∈ a.freeVars := by
  induction args generalizing names with
  | nil => simp [noteVarsList]
  | cons a args ih =>
    rw [noteVarsList, ih fun b hb => h b (List.mem_cons_of_mem a hb), h a (.head _)]
    simp [or_assoc]

theorem mem_noteVarsFields
    (h : ∀ f ∈ fields, ∀ names, x ∈ noteVars names f.2 ↔ x ∈ names ∨ x ∈ f.2.freeVars)
    (names : List String) :
    x ∈ noteVarsFields names fields ↔ x ∈ names ∨ ∃ f ∈ fields, x ∈ f.2.freeVars := by
  induction fields generalizing names with
  | nil => simp [noteVarsFields]
  | cons f fields ih =>
    obtain ⟨k, t⟩ := f
    rw [noteVarsFields, ih fun g hg => h g (.tail _ hg), h (k, t) (.head _)]
    simp [or_assoc]

end Lists

theorem mem_noteVars (names : List String) :
    x ∈ noteVars names sig ↔ x ∈ names ∨ x ∈ sig.freeVars := by
  induction sig generalizing names with
  | var name => simp [freeVars, noteVars, mem_noteName]
  | con name args ih => simp [freeVars, noteVars, mem_noteVarsList ih]
  | func arg ret iha ihr =>
    show x ∈ noteVars (noteVars names arg) ret ↔ x ∈ names ∨ x ∈ noteVars arg.freeVars ret
    rw [ihr, iha, ihr, or_assoc]
  | record fields ext ih =>
    cases ext <;> simp [freeVars, noteVars, mem_noteVarsFields ih, mem_noteName, or_assoc]

@[simp] theorem mem_freeVars_var : x ∈ (var name).freeVars ↔ x = name := by
  simp [freeVars, noteVars, mem_noteName]

@[simp] theorem mem_freeVars_con : x ∈ (con name args).freeVars ↔ ∃ a ∈ args, x ∈ a.freeVars := by
  simp [freeVars, noteVars, mem_noteVarsList fun _ _ => mem_noteVars]

@[simp] theorem mem_freeVars_func {arg : Signature} :
    x ∈ (func arg ret).freeVars ↔ x ∈ arg.freeVars ∨ x ∈ ret.freeVars := by
  rw [freeVars, noteVars, mem_noteVars]; rfl

@[simp] theorem mem_freeVars_record {fields : List (String × Signature)} {ext : Option String} :
    x ∈ (record fields ext).freeVars ↔ (∃ f ∈ fields, x ∈ f.2.freeVars) ∨ ext = some x := by
  cases ext <;>
    simp [freeVars, noteVars, mem_noteVarsFields fun _ _ => mem_noteVars, mem_noteName, eq_comm]

theorem mem_freeVars_curried :
    x ∈ (curried args ret).freeVars ↔ (∃ a ∈ args, x ∈ a.freeVars) ∨ x ∈ ret.freeVars := by
  induction args with
  | nil => simp [curried]
  | cons a args ih =>
    show x ∈ (func a (curried args ret)).freeVars ↔ _
    rw [mem_freeVars_func, ih]
    simp [or_assoc]

theorem exists_toTy {σ : List (String × Ty)}
    (h : ∀ x ∈ sig.freeVars, ∃ v, Assoc.get? σ x = some (.var v)) : ∃ t, sig.toTy σ = .ok t := by
  induction sig with
  | var name =>
    obtain ⟨v, hv⟩ := h name (by simp)
    exact ⟨.var v, toTy_var.mpr hv⟩
  | con name args ih =>
    obtain ⟨ts, hts⟩ := exists_forall₂ fun a ha =>
      ih a ha fun x hx => h x (mem_freeVars_con.mpr ⟨a, ha, hx⟩)
    exact ⟨.app name ts, toTy_con.mpr ⟨ts, hts, rfl⟩⟩
  | func arg ret iha ihr =>
    obtain ⟨a, ha⟩ := iha fun x hx => h x (mem_freeVars_func.mpr (.inl hx))
    obtain ⟨r, hr⟩ := ihr fun x hx => h x (mem_freeVars_func.mpr (.inr hx))
    exact ⟨.func a r, toTy_func.mpr ⟨a, r, ha, hr, rfl⟩⟩
  | record fields ext ih =>
    obtain ⟨fs, hfs⟩ := Assoc.exists_related (R := fun e t => e.toTy σ = .ok t) fun f hf =>
      ih f hf fun x hx => h x (mem_freeVars_record.mpr (.inl ⟨f, hf, hx⟩))
    cases ext with
    | none => exact ⟨.record fs none, toTy_record.mpr ⟨fs, hfs, rfl⟩⟩
    | some name =>
      obtain ⟨v, hv⟩ := h name (mem_freeVars_record.mpr (.inr rfl))
      exact ⟨.record fs (some v), toTy_record.mpr ⟨fs, hfs, by simp only [hv, extend]⟩⟩

end Signature

namespace Solver

variable {ctx : Context} {scope scope' : List String}

theorem Covers.congr (h : Covers ctx scope) (hscope : ∀ x, x ∈ scope ↔ x ∈ scope') :
    Covers ctx scope' := fun name => by rw [← hscope, h name]

theorem Covers.insert_closed (h : Covers ctx scope) (name : String) (t : Ty) (vars : List Var) :
    Covers (Assoc.insert ctx name (.closed name t vars)) (name :: scope) := by
  intro x
  rw [Assoc.get?_insert, List.mem_cons, h x]
  by_cases hx : x = name
  · subst hx
    refine iff_of_true (.inl rfl) ⟨_, t, if_pos rfl, ?_⟩
    simp [Scheme.typeOf?, Scheme.closed, Assoc.get?]
  · rw [if_neg hx]
    exact or_iff_right hx

end Solver

namespace Environment

open Solver (Covers)

variable {env : Environment}

/-- One of the two checks that are made before the program is looked at fails. -/
def Rejected (env : Environment) : Prop :=
  match env.aliasTable with
  | .error _ => True
  | .ok table =>
    match env.initialContext { aliases := table } with
    | (.error _, _) => True
    | (.ok _, _) => False

variable {ctx : Context} {scope : List String}

theorem bindValues_cases (vs : List (String × Signature)) (h : Covers ctx scope) (s : Store) :
    (∃ name cause s', bindValues vs ctx s = (.error (.invalidSignature name cause), s')) ∨
    ∃ ctx' s', bindValues vs ctx s = (.ok ctx', s') ∧ Covers ctx' (Assoc.keys vs ++ scope) := by
  induction vs generalizing ctx scope s with
  | nil => exact .inr ⟨ctx, s, rfl, h⟩
  | cons e vs ih =>
    rw [bindValues]
    rcases closedScheme_cases e.1 e.2 s with ⟨cause, s', heq⟩ | ⟨t, _, heq⟩
    · rw [heq]
      exact .inl ⟨e.1, cause, s', rfl⟩
    · rw [heq]
      refine (ih (h.insert_closed e.1 t _) _).imp_right ?_
      rintro ⟨ctx', s', heq, hcovers⟩
      exact ⟨ctx', s', heq, hcovers.congr fun x => by simp [Assoc.keys, or_left_comm]⟩

theorem initialContext_spec (env : Environment) (s : Store) :
    match env.initialContext s with
    | (.error e, _) => ∃ name cause, e = .invalidSignature name cause
    | (.ok ctx, _) => Covers ctx env.names ∧ env.Readable := by
  have hempty : Covers [] [] := fun name => by simp [Assoc.get?]
  rw [initialContext]
  rcases bindConstructors_cases env.constructors [] s with ⟨name, cause, s', heq⟩ | ⟨heq, hscoped⟩
  · rw [heq]
    exact ⟨name, cause, rfl⟩
  rw [heq]
  rcases bindValues_cases (Assoc.mapValues Constructor.signature env.constructors) hempty s with
    ⟨name, cause, s', heq⟩ | ⟨ctx, s', heq, hctors⟩
  · rw [heq]
    exact ⟨name, cause, rfl⟩
  rw [heq]
  rcases bindValues_cases env.values hctors s' with ⟨name, cause, s', heq⟩ | ⟨ctx', s', heq, hvalues⟩
  · simp only [heq]
    exact ⟨name, cause, rfl⟩
  simp only [heq]
  refine ⟨hvalues.congr fun x => by simp [names, or_comm], fun e he vars hlen => ?_⟩
  have hargs : ∀ a ∈ e.2.args, ∃ t, a.toTy (assignment e.2.params vars) = .ok t := by
    intro a ha
    refine Signature.exists_toTy fun x hx => ?_
    have hparam := hscoped e he x (Signature.mem_freeVars_curried.mpr (.inl ⟨a, ha, hx⟩))
    obtain ⟨t, ht⟩ := Generate.exists_assignment hlen hparam
    obtain ⟨v, rfl, _⟩ := Generate.mem_of_assignment ht
    exact ⟨v, ht⟩
  obtain ⟨ts, hts⟩ := exists_forall₂ hargs
  exact ⟨ts, Signature.toTyList_ok.mpr hts⟩

theorem aliasTable_error {e : FatalError} (h : env.aliasTable = .error e) :
    ∃ name cause, e = .invalidSignature name cause := by
  have hadd : ∀ {entries : List (String × Alias)} {table : AliasTable},
      addAliases entries table = .error e → ∃ name cause, e = .invalidSignature name cause := by
    intro entries
    induction entries with
    | nil => intro table h; cases h
    | cons entry entries ih =>
      intro table h
      rw [addAliases] at h
      split at h
      · cases h; exact ⟨_, _, rfl⟩
      · exact ih h
  rw [aliasTable] at h
  split at h
  · rename_i heq
    cases h
    exact hadd heq
  · split at h
    · cases h; exact ⟨_, _, rfl⟩
    · cases h

end Environment

/-! ## Whole programs -/

/-- What becomes of a program, by the names that it uses. -/
theorem inferProgram_cases {fuel : Nat} {program : Program} {env : Environment} {config : Config}
    {r : Except InferError TypedProgram} (h : inferProgram fuel program env config = some r) :
    (env.Rejected ∧ ∃ name cause, r = .error (.fatal (.invalidSignature name cause))) ∨
    ¬ env.Rejected ∧
      ((∃ o ∈ program.constructors, o.1 ∉ Assoc.keys env.constructors ∧
        r = .error (.fatal (.unknownConstructor o.1 o.2))) ∨
      (∀ o ∈ program.constructors, o.1 ∈ Assoc.keys env.constructors) ∧
        ((∃ o ∈ program.unbound env.names, r = .error (.fatal (.unboundName o.1 o.2))) ∨
        program.unbound env.names = [] ∧
          ((∃ typed, r = .ok typed) ∨ ∃ errors suppressed, r = .error (.types errors suppressed)))) := by
  rw [inferProgram, Prepared.ofProgram] at h
  rw [Environment.Rejected]
  cases htable : env.aliasTable with
  | error e =>
    simp only [htable] at h
    cases h
    obtain ⟨name, cause, rfl⟩ := Environment.aliasTable_error htable
    exact .inl ⟨.intro, name, cause, rfl⟩
  | ok table =>
    simp only [htable] at h ⊢
    have hspec := env.initialContext_spec { aliases := table }
    generalize env.initialContext { aliases := table } = x at hspec h ⊢
    obtain ⟨x, s⟩ := x
    cases x with
    | error e =>
      obtain ⟨name, cause, rfl⟩ := hspec
      cases h
      exact .inl ⟨.intro, name, cause, rfl⟩
    | ok ctx =>
      obtain ⟨hcovers, hreadable⟩ := hspec
      refine .inr ⟨id, ?_⟩
      have hwalk := Generate.program_checked hreadable program { store := s }
      simp only at h
      generalize Generate.program env program { store := s } = y at hwalk h
      cases y with
      | error e g =>
        obtain ⟨o, ho, hunknown, rfl⟩ := hwalk
        cases h
        exact .inl ⟨o, ho, hunknown, rfl⟩
      | ok c g =>
        obtain ⟨hknown, hasks⟩ := hwalk
        refine .inr ⟨hknown, ?_⟩
        have hsolve := Solver.solve_scoped hcovers fuel c
          (.ofStore { g.store with compress := config.pathCompression } config.maxErrors)
        simp only [Prepared.solve] at h
        generalize Solver.solve fuel ctx c _ = run at hsolve h
        cases run with
        | outOfFuel => cases h
        | fatal e st =>
          obtain ⟨o, ho, rfl⟩ := hsolve
          cases h
          exact .inl ⟨o, (hasks env.names o).mp ho, rfl⟩
        | done _ st =>
          have hnone : program.unbound env.names = [] := by
            rw [List.eq_nil_iff_forall_not_mem]
            intro o ho
            have hmem := (hasks env.names o).mpr ho
            rw [show c.unbound env.names = [] from hsolve] at hmem
            cases hmem
          refine .inr ⟨hnone, ?_⟩
          simp only at h
          split at h
          · split at h
            · cases h
            · obtain ⟨nodeTypes, _, rfl⟩ := Option.map_eq_some_iff.mp h
              exact .inl ⟨_, rfl⟩
          · cases h; exact .inr ⟨_, _, rfl⟩

/-- Fatal errors are about names only. A run that comes to an end gives an invalid signature if and
only if the environment is rejected; else an unknown constructor if and only if some pattern names
one; else an unbound name, which some variable of the program uses where nothing binds it, if and
only if there is such a variable; else types or type errors. -/
theorem fatal_iff_misnamed {fuel : Nat} {program : Program} {env : Environment} {config : Config}
    {r : Except InferError TypedProgram} (h : inferProgram fuel program env config = some r) :
    ((∃ name cause, r = .error (.fatal (.invalidSignature name cause))) ↔ env.Rejected) ∧
    (¬ env.Rejected →
      ((∃ name span, r = .error (.fatal (.unknownConstructor name span))) ↔
        ∃ o ∈ program.constructors, o.1 ∉ Assoc.keys env.constructors) ∧
      ((∀ o ∈ program.constructors, o.1 ∈ Assoc.keys env.constructors) →
        ((∃ name span, r = .error (.fatal (.unboundName name span))) ↔
          program.unbound env.names ≠ []) ∧
        (∀ name span, r = .error (.fatal (.unboundName name span)) →
          (name, span) ∈ program.unbound env.names) ∧
        (program.unbound env.names = [] →
          (∃ typed, r = .ok typed) ∨ ∃ errors suppressed, r = .error (.types errors suppressed)))) := by
  rcases inferProgram_cases h with ⟨hrej, name, cause, rfl⟩ | ⟨hrej, hrest⟩
  · exact ⟨iff_of_true ⟨name, cause, rfl⟩ hrej, fun hn => absurd hrej hn⟩
  rcases hrest with ⟨o, ho, hunknown, rfl⟩ | ⟨hknown, hrest⟩
  · exact ⟨iff_of_false (by simp) hrej, fun _ =>
      ⟨iff_of_true ⟨o.1, o.2, rfl⟩ ⟨o, ho, hunknown⟩, fun hknown => absurd (hknown o ho) hunknown⟩⟩
  have hall : ¬ ∃ o ∈ program.constructors, o.1 ∉ Assoc.keys env.constructors :=
    fun ⟨o, ho, hn⟩ => hn (hknown o ho)
  rcases hrest with ⟨o, ho, rfl⟩ | ⟨hnone, hr⟩
  · refine ⟨iff_of_false (by simp) hrej, fun _ => ⟨iff_of_false (by simp) hall, fun _ =>
      ⟨iff_of_true ⟨o.1, o.2, rfl⟩ (List.ne_nil_of_mem ho), fun name span heq => ?_, fun hnone => ?_⟩⟩⟩
    · cases heq
      exact ho
    · rw [hnone] at ho
      cases ho
  · have hfatal : ∀ e, r ≠ .error (.fatal e) := by
      rcases hr with ⟨typed, rfl⟩ | ⟨errors, suppressed, rfl⟩ <;> simp
    exact ⟨iff_of_false (fun ⟨_, _, he⟩ => hfatal _ he) hrej, fun _ =>
      ⟨iff_of_false (fun ⟨_, _, he⟩ => hfatal _ he) hall, fun _ =>
        ⟨iff_of_false (fun ⟨_, _, he⟩ => hfatal _ he) (by simp [hnone]),
          fun _ _ he => absurd he (hfatal _), fun _ => hr⟩⟩⟩

/-- The condition is a number, and the branch uses a name that nothing binds. -/
def misnamed : Program where
  groups := [
    ⟨[{ name := "main", params := [⟨{}, .var "x"⟩], span := {},
        body := ⟨0, {}, .ite ⟨1, {}, .literal (.int 1)⟩ ⟨2, {}, .var "x"⟩ ⟨3, {}, .var "y"⟩⟩ }]⟩]

/-- The type error before it does not hide the name. -/
theorem misnamed_fatal :
    inferProgram 20 misnamed {} {} = some (.error (.fatal (.unboundName "y" {}))) ∧
      ("y", {}) ∈ misnamed.unbound (Environment.names {}) := by
  have hrun : inferProgram 20 misnamed {} {} = some (.error (.fatal (.unboundName "y" {}))) := by
    cbv
  have haccepted : ¬ Environment.Rejected {} := by cbv
  have hnone : misnamed.constructors = [] := by cbv
  refine ⟨hrun, ((((fatal_iff_misnamed hrun).2 haccepted).2 ?_).2.1 "y" {} rfl)⟩
  rw [hnone]
  exact fun _ ho => absurd ho List.not_mem_nil

end TypeSolver
