import TypeSolver.Proofs.Fragments
import TypeSolver.Proofs.Names

/-!
# TypeSolver.Proofs.NodeTypes

The types that the walk over a program notes for expressions. It notes one for each expression, at
every depth, and for nothing else. They are variables that it made, functions and open records over
them, and the type of conditions; what holds of these in a store, and stays when variables are added
(`Notable`), holds of every type that is noted. The walk only adds variables, so what it noted once
stays over the store (`Notes`); `expr_notes` is the walk over an expression, by cases on its form.
-/

namespace TypeSolver

mutual

/-- An expression and all expressions in it. -/
def Expr.nodes : Expr → List Expr
  | ⟨id, span, form⟩ => ⟨id, span, form⟩ :: form.nodes

def ExprForm.nodes : ExprForm → List Expr
  | .literal _ => []
  | .var _ => []
  | .lambda _ body => body.nodes
  | .apply func args => func.nodes ++ exprNodes args
  | .letIn defs body => defNodes defs ++ body.nodes
  | .case scrutinee branches => scrutinee.nodes ++ branchNodes branches
  | .ite cond onTrue onFalse => cond.nodes ++ (onTrue.nodes ++ onFalse.nodes)
  | .list items => exprNodes items
  | .record fields => fieldNodes fields
  | .access record _ => record.nodes
  | .update record fields => record.nodes ++ fieldNodes fields

def exprNodes : List Expr → List Expr
  | [] => []
  | e :: es => e.nodes ++ exprNodes es

def fieldNodes : List Field → List Expr
  | [] => []
  | ⟨_, value⟩ :: fs => value.nodes ++ fieldNodes fs

def branchNodes : List Branch → List Expr
  | [] => []
  | ⟨_, body, _⟩ :: bs => body.nodes ++ branchNodes bs

def defNodes : List Def → List Expr
  | [] => []
  | ⟨_, _, body, _⟩ :: ds => body.nodes ++ defNodes ds

end

def Program.nodes (p : Program) : List Expr := p.groups.flatMap fun g => defNodes g.defs

/-- A property of the types that the walk notes, in a store of so many variables. -/
structure Notable (P : Nat → Ty → Prop) : Prop where
  mono {n n' : Nat} {t : Ty} : n ≤ n' → P n t → P n' t
  var {n : Nat} {v : Var} : v < n → P n (.var v)
  bool {n : Nat} : P n .bool
  func {n : Nat} {arg ret : Ty} : P n arg → P n ret → P n (.func arg ret)
  record {n : Nat} {fields : List (String × Ty)} {v : Var} : (∀ f ∈ fields, P n f.2) → v < n →
    P n (.record fields (some v))

/-- Every expression was checked against a type with the property. -/
def Generator.Noted (P : Nat → Ty → Prop) (g : Generator) : Prop :=
  ∀ e ∈ g.nodeTypes, P g.store.size e.2

namespace Notable

variable {P : Nat → Ty → Prop} (hP : Notable P) {n : Nat}
include hP

theorem vars {vs : List Var} (h : ∀ v ∈ vs, v < n) : ∀ t ∈ vs.map Ty.var, P n t := by
  intro t ht
  obtain ⟨v, hv, rfl⟩ := List.mem_map.mp ht
  exact hP.var (h v hv)

theorem curried {ts : List Ty} {t : Ty} (hts : ∀ u ∈ ts, P n u) (ht : P n t) :
    P n (Ty.curried ts t) := by
  induction ts with
  | nil => exact ht
  | cons u ts ih => exact hP.func (hts u (.head _)) (ih fun u hu => hts u (.tail _ hu))

end Notable

theorem Ty.notable_any : Notable fun _ _ => True where
  mono _ _ := .intro
  var _ := .intro
  bool := .intro
  func _ _ := .intro
  record _ _ := .intro

theorem Ty.notable_below : Notable fun n t => t.Below n where
  mono hn h := h.mono hn
  var hv w hw := by rw [mem_vars_var.mp hw]; exact hv
  bool _ hv := by cases hv
  func ha hr v hv := (mem_vars_func.mp hv).elim (ha v) (hr v)
  record hf hv w hw := by
    rcases mem_vars_record.mp hw with ⟨f, hmem, hw⟩ | hw
    · exact hf f hmem w hw
    · cases hw; exact hv

theorem Store.size_le_freshNamed (rank : Rank) (names : List String) (s : Store) :
    s.size ≤ (s.freshNamed rank names).2.size := by
  induction names generalizing s with
  | nil => exact le_rfl
  | cons name names ih =>
    refine Nat.le_trans ?_ (ih (s.fresh rank (some name)).2)
    rw [fresh_size]
    exact Nat.le_succ _

namespace Generate

variable {α β : Type} {env : Environment} {P : Nat → Ty → Prop}

/-- A part of the walk that starts with at least `n` variables. It adds variables only, it notes
types with the property `P` for the expressions `es` and for no others, and `Q` holds of its result
and the number of variables then. -/
def Notes (P : Nat → Ty → Prop) (n : Nat) (m : Generate α) (es : List Expr) (Q : Nat → α → Prop) :
    Prop :=
  ∀ g a g', m g = .ok a g' → n ≤ g.store.size → g.Noted P →
    g.store.size ≤ g'.store.size ∧ g'.Noted P ∧
      (∀ id, id ∈ Assoc.keys g'.nodeTypes ↔ id ∈ Assoc.keys g.nodeTypes ∨ ∃ e ∈ es, e.id = id) ∧
      Q g'.store.size a

abbrev any : Nat → α → Prop := fun _ _ => True

namespace Notes

variable {n : Nat} {m : Generate α} {f : α → Generate β} {es es' : List Expr} {Q : Nat → α → Prop}
  {R : Nat → β → Prop}

theorem pure {a : α} (h : ∀ n', n ≤ n' → Q n' a) : Notes P n (pure a) [] Q := by
  intro g b g' hrun hn hg
  obtain ⟨rfl, rfl⟩ := pure_eq_ok hrun
  exact ⟨le_rfl, hg, by simp, h _ hn⟩

theorem bind (h : Notes P n m es Q) (hf : ∀ n' a, n ≤ n' → Q n' a → Notes P n' (f a) es' R) :
    Notes P n (m >>= f) (es ++ es') R := by
  intro g b g'' hrun hn hg
  obtain ⟨a, g', hm, hf'⟩ := bind_eq_ok hrun
  obtain ⟨hle, hg', hids, hQ⟩ := h g a g' hm hn hg
  obtain ⟨hle', hg'', hids', hR⟩ := hf _ a (hn.trans hle) hQ g' b g'' hf' le_rfl hg'
  refine ⟨hle.trans hle', hg'', fun id => ?_, hR⟩
  rw [hids', hids, or_assoc]
  simp only [List.mem_append, or_and_right, exists_or]

theorem map {h : α → β} (hm : Notes P n m es Q) (hR : ∀ n' a, n ≤ n' → Q n' a → R n' (h a)) :
    Notes P n (m >>= fun a => Pure.pure (h a)) es R := by
  intro g b g' hrun hn hg
  obtain ⟨a, g1, ha, hrun⟩ := bind_eq_ok hrun
  obtain ⟨rfl, rfl⟩ := pure_eq_ok hrun
  obtain ⟨hle, hg', hids, hQ⟩ := hm g a g1 ha hn hg
  exact ⟨hle, hg', hids, hR _ a (hn.trans hle) hQ⟩

theorem result {a : α} : Notes P n (Pure.pure a) [] any := pure fun _ _ => .intro

theorem done {h : α → β} (hm : Notes P n m es Q) :
    Notes P n (m >>= fun a => Pure.pure (h a)) es any := hm.map fun _ _ _ _ => .intro

theorem nested (h : Notes P n m es Q) : Notes P n (nested m) es Q := by
  intro g a g' hrun hn hg
  obtain ⟨g1, hm, rfl⟩ := nested_eq_ok hrun
  exact h { g with rank := g.rank + 1 } a g1 hm hn hg

end Notes

variable (hP : Notable P)
include hP

theorem fresh_notes {n : Nat} : Notes P n fresh [] fun n' v => v < n' := by
  rintro g v g' ⟨⟩ _ hg
  have hsize : (g.store.fresh g.rank none).2.size = g.store.size + 1 := Store.fresh_size ..
  refine ⟨hsize ▸ Nat.le_succ _, fun e he => ?_, by simp, hsize ▸ Nat.lt_succ_self _⟩
  exact hP.mono (hsize ▸ Nat.le_succ _) (hg e he)

theorem freshType_notes {n : Nat} : Notes P n freshType [] fun n' t => P n' t :=
  (fresh_notes hP).map fun _ _ _ hv => hP.var hv

theorem freshVars_notes {n : Nat} (k : Nat) :
    Notes P n (freshVars k) [] fun n' vs => vs.length = k ∧ ∀ v ∈ vs, v < n' := by
  induction k generalizing n with
  | zero => exact .pure fun _ _ => ⟨rfl, by simp⟩
  | succ k ih =>
    refine (fresh_notes hP).bind fun n1 v _ hv => ih.map fun n2 vs hn hvs =>
      ⟨congrArg (· + 1) hvs.1, fun w hw => ?_⟩
    rcases List.mem_cons.mp hw with rfl | hw
    · exact hv.trans_le hn
    · exact hvs.2 w hw

theorem note_notes {n : Nat} (e : Expr) {t : Ty} (ht : P n t) : Notes P n (note e.id t) [e] any := by
  rintro g _ g' ⟨⟩ hn hg
  refine ⟨le_rfl, fun f hf => ?_, fun id => ?_, .intro⟩
  · rcases Assoc.mem_of_mem_insert hf with rfl | hf
    · exact hP.mono hn ht
    · exact hg f hf
  · rw [Assoc.mem_keys_insert, or_comm]
    simp [eq_comm]

theorem constructor_notes {n : Nat} (name : String) (span : Span) :
    Notes P n (constructor env name span) [] any := by
  intro g r g' hrun _ hg
  obtain ⟨c, _, _, _, _, rfl⟩ := constructor_eq_ok.mp hrun
  have hle := Store.size_le_freshNamed g.rank c.params g.store
  exact ⟨hle, fun e he => hP.mono hle (hg e he), by simp, .intro⟩

theorem fieldBindings_notes {n : Nat} (names : List String) :
    Notes P n (fieldBindings names) [] any := by
  induction names generalizing n with
  | nil => exact .result
  | cons name names ih => exact (fresh_notes hP).bind fun _ _ _ _ => ih.done

set_option linter.unusedSectionVars false in
mutual

theorem pattern_notes {n : Nat} : ∀ (p : Pattern) (expected : Ty),
    Notes P n (pattern env p expected) [] any
  | ⟨span, form⟩, expected => by exact patternForm_notes span form expected

theorem patternForm_notes {n : Nat} (span : Span) : ∀ (p : PatternForm) (expected : Ty),
    Notes P n (patternForm env span p expected) [] any
  | .wildcard, expected => by exact .result
  | .var name, expected => by exact (fresh_notes hP).done
  | .literal value, expected => by exact .result
  | .ctor name args, expected => by
    exact (constructor_notes hP name span).bind fun _ _ _ _ => (freshVars_notes hP args.length).bind
      fun _ vars _ _ => (patterns_notes args _).done
  | .record fields, expected => by
    exact (fresh_notes hP).bind fun _ _ _ _ => (fieldBindings_notes hP fields).done
  | .named inner name, expected => by
    exact (fresh_notes hP).bind fun _ _ _ _ => (pattern_notes inner expected).done

theorem patterns_notes {n : Nat} : ∀ (ps : List Pattern) (ts : List Ty),
    Notes P n (patterns env ps ts) [] any
  | [], _ => .result
  | _ :: _, [] => .result
  | p :: ps, t :: ts => by
    exact (pattern_notes p t).bind fun _ _ _ _ => (patterns_notes ps ts).done

end

theorem function_notes {n : Nat} {params : List Pattern} {span : Span} {expected : Ty}
    {body : Ty → Generate Constraint} {es : List Expr}
    (hbody : ∀ n t, P n t → Notes P n (body t) es any) (h : P n expected) :
    Notes P n (function env params span expected body) es any := by
  rw [function]
  split
  · exact hbody n expected h
  · exact (freshVars_notes hP params.length).bind fun _ _ _ _ =>
      (freshType_notes hP).bind fun _ _ _ hret =>
        (patterns_notes hP params _).nested.bind fun _ _ hn _ =>
          (hbody _ _ (hP.mono hn hret)).done

/-- Every field that is set has a type. -/
theorem fieldTypes_notes {n : Nat} (fs : List Field) (types : List (String × Ty))
    (h : ∀ e ∈ types, P n e.2) : Notes P n (fieldTypes fs types) [] fun n' types' =>
      (∀ e ∈ types', P n' e.2) ∧ (fs.filterMap fun f => Assoc.get? types' f.name).length = fs.length := by
  suffices Notes P n (fieldTypes fs types) [] fun n' types' => ∀ e ∈ types', P n' e.2 by
    intro g types' g' hrun hn hg
    obtain ⟨hle, hg', hids, htypes⟩ := this g types' g' hrun hn hg
    refine ⟨hle, hg', hids, htypes, ?_⟩
    have hset := @fieldTypes_checked {} fs types g
    rw [hrun] at hset
    rw [List.length_filterMap_eq_countP, List.countP_eq_length]
    intro f hf
    rw [Option.isSome_iff_ne_none]
    exact fun hnone => Assoc.get?_eq_none_iff.mp hnone (hset.2.2 f hf)
  induction fs generalizing n types with
  | nil => exact .pure fun n' hn e he => hP.mono hn (h e he)
  | cons f fs ih =>
    obtain ⟨name, value⟩ := f
    rw [fieldTypes]
    split
    · exact ih types h
    · refine (freshType_notes hP).bind fun n' t hn ht => ih _ fun e he => ?_
      rcases Assoc.mem_of_mem_insert he with rfl | he
      · exact ht
      · exact hP.mono hn (h e he)

mutual

theorem expr_notes {n : Nat} : ∀ (e : Expr) {expected : Ty}, P n expected →
    Notes P n (expr env e expected) e.nodes any
  | ⟨id, span, form⟩, expected, h => by
    exact (note_notes hP ⟨id, span, form⟩ h).bind fun _ _ hn _ => exprForm_notes span form (hP.mono hn h)

theorem exprForm_notes {n : Nat} (span : Span) : ∀ (e : ExprForm) {expected : Ty},
    P n expected → Notes P n (exprForm env span e expected) e.nodes any
  | .literal value, expected, _ => by exact .result
  | .var name, expected, _ => by exact .result
  | .lambda params body, expected, h => by
    exact function_notes hP (fun _ _ ht => expr_notes body ht) h
  | .apply func args, expected, h => by
    refine (freshVars_notes hP args.length).bind fun n1 vars hn hvars => ?_
    have htypes := hP.vars hvars.2
    have hlen : args.length = (vars.map Ty.var).length := by rw [List.length_map, hvars.1]
    exact (expr_notes func (hP.curried htypes (hP.mono hn h))).bind fun _ _ hn' _ =>
      (exprs_notes args hlen fun t ht => hP.mono hn' (htypes t ht)).done
  | .letIn defs body, expected, h => by
    exact (definitions_notes defs).nested.bind fun _ _ hn _ =>
      (expr_notes body (hP.mono hn h)).done
  | .case scrutinee bs, expected, h => by
    exact (freshType_notes hP).bind fun _ subject hn hsubject =>
      (expr_notes scrutinee hsubject).bind fun _ _ hn' _ =>
        (branches_notes subject bs (hP.mono (hn.trans hn') h)).done
  | .ite cond onTrue onFalse, expected, h => by
    exact (expr_notes cond hP.bool).bind fun _ _ hn _ => (expr_notes onTrue (hP.mono hn h)).bind
      fun _ _ hn' _ => (expr_notes onFalse (hP.mono (hn.trans hn') h)).done
  | .list items, expected, h => by
    refine (freshType_notes hP).bind fun _ elem _ helem =>
      (exprs_notes items (by simp) fun t ht => ?_).done
    obtain ⟨_, _, rfl⟩ := List.mem_map.mp ht
    exact helem
  | .record fs, expected, h => by
    exact (fields_notes fs).done
  | .access record field, expected, h => by
    refine (fresh_notes hP).bind fun _ ext hn hext => expr_notes record (hP.record ?_ hext)
    intro f hf
    obtain rfl := List.mem_singleton.mp hf
    exact hP.mono hn h
  | .update record fs, expected, h => by
    refine (fresh_notes hP).bind fun _ ext _ hext => (fieldTypes_notes hP fs [] nofun).bind
      fun _ types hn htypes => ?_
    refine (expr_notes record (hP.record htypes.1 (hext.trans_le hn))).bind
      fun _ _ hn' _ => (fieldValues_notes fs htypes.2.symm fun t ht => ?_).done
    obtain ⟨f, _, hget⟩ := List.mem_filterMap.mp ht
    exact hP.mono hn' (htypes.1 _ (Assoc.mem_of_get? hget))

theorem exprs_notes {n : Nat} : ∀ (es : List Expr) {ts : List Ty}, es.length = ts.length →
    (∀ t ∈ ts, P n t) → Notes P n (exprs env es ts) (exprNodes es) any
  | [], _, _, _ => .result
  | _ :: _, [], hlen, _ => by cases hlen
  | e :: es, t :: ts, hlen, h => by
    exact (expr_notes e (h t (by simp))).bind fun _ _ hn _ =>
      (exprs_notes es (Nat.succ.inj hlen) fun u hu => hP.mono hn (h u (by simp [hu]))).done

theorem fieldValues_notes {n : Nat} : ∀ (fs : List Field) {ts : List Ty}, fs.length = ts.length →
    (∀ t ∈ ts, P n t) → Notes P n (fieldValues env fs ts) (fieldNodes fs) any
  | [], _, _, _ => .result
  | _ :: _, [], hlen, _ => by cases hlen
  | ⟨name, value⟩ :: fs, t :: ts, hlen, h => by
    exact (expr_notes value (h t (by simp))).bind fun _ _ hn _ =>
      (fieldValues_notes fs (Nat.succ.inj hlen) fun u hu => hP.mono hn (h u (by simp [hu]))).done

theorem fields_notes {n : Nat} : ∀ fs : List Field,
    Notes P n (fields env fs) (fieldNodes fs) any
  | [] => .result
  | ⟨name, value⟩ :: fs => by
    exact (freshType_notes hP).bind fun _ _ _ ht => (expr_notes value ht).bind fun _ _ _ _ =>
      (fields_notes fs).done

theorem branches_notes {n : Nat} (subject : Ty) {expected : Ty} : ∀ bs : List Branch,
    P n expected → Notes P n (branches env subject expected bs) (branchNodes bs) any
  | [], _ => .result
  | ⟨p, body, span⟩ :: bs, h => by
    exact (pattern_notes hP p subject).nested.bind fun _ _ hn _ =>
      (expr_notes body (hP.mono hn h)).bind fun _ _ hn' _ =>
        (branches_notes subject bs (hP.mono (hn.trans hn') h)).done

theorem definitions_notes {n : Nat} : ∀ ds : List Def,
    Notes P n (definitions env ds) (defNodes ds) fun _ fs =>
      fs.flatMap (fun f => Assoc.keys f.env) = defNames ds
  | [] => .pure fun _ _ => rfl
  | ⟨name, params, body, span⟩ :: ds => by
    exact (fresh_notes hP).bind fun _ _ _ hv =>
      (function_notes hP (fun _ _ ht => expr_notes body ht) (hP.var hv)).bind fun _ _ _ _ =>
        (definitions_notes ds).map fun _ fs _ hfs => congrArg (name :: ·) hfs

end

/-- The names of a group are those of its definitions. -/
theorem groups_notes {n : Nat} (gs : List Group) :
    Notes P n (groups env gs) (gs.flatMap fun g => defNodes g.defs) fun _ schemes =>
      List.Forall₂ (fun g scheme => ∀ name, name ∈ Assoc.keys scheme.header ↔ name ∈ defNames g.defs)
        gs schemes := by
  induction gs generalizing n with
  | nil => exact .pure fun _ _ => .nil
  | cons g gs ih =>
    refine (definitions_notes hP g.defs).nested.bind fun _ fs _ hfs =>
      ih.map fun _ schemes _ hschemes => .cons (fun name => ?_) hschemes
    show name ∈ Assoc.keys (Fragment.joinAll fs).env ↔ _
    rw [Fragment.mem_keys_joinAll, ← hfs, List.mem_flatMap]

omit hP in
theorem groups_visits (gs : List Group) (g : Generator) (schemes : List Scheme) (g' : Generator)
    (h : groups env gs g = .ok schemes g') :
    (∀ id, id ∈ Assoc.keys g'.nodeTypes ↔
      id ∈ Assoc.keys g.nodeTypes ∨ ∃ e ∈ gs.flatMap fun g => defNodes g.defs, e.id = id) ∧
    List.Forall₂ (fun g scheme => ∀ name, name ∈ Assoc.keys scheme.header ↔ name ∈ defNames g.defs)
      gs schemes :=
  (groups_notes Ty.notable_any gs g schemes g' h (Nat.zero_le _) fun _ _ => .intro).2.2

end Generate

theorem Prepared.nodeTypes_notable {P : Nat → Ty → Prop} (hP : Notable P) {program : Program}
    {env : Environment} {p : Prepared} (h : ofProgram program env = .ok p) :
    ∀ e ∈ p.nodeTypes, P p.store.size e.2 := by
  obtain ⟨_, _, s, c, g, _, _, hprogram, rfl⟩ := ofProgram_eq_ok h
  have hnotes : Generate.Notes P 0 (Generate.program env program) _ Generate.any :=
    (Generate.groups_notes hP program.groups).done
  have hempty : Generator.Noted P { store := s } := fun _ he => absurd he List.not_mem_nil
  exact (hnotes _ _ _ hprogram (Nat.zero_le _) hempty).2.1

end TypeSolver
