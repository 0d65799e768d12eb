import Mathlib
import TypeSolver.Proofs.Generalization
import TypeSolver.Proofs.Names

/-!
# TypeSolver.Proofs.Attribution

Which definition or branch a type error belongs to. The `sites` of a program are its expressions,
patterns and definitions that demand something of types, in the order in which the solver comes
upon them, each with the span of the innermost definition or branch around it.

The `marked` demands of a constraint are those that the solver discharges, each with the checkpoint
that it is at. The walk over a program turns the one list into the other, so each error is recorded
at a checkpoint that encloses the demand that failed (`errors_attributed`).
-/

open Relation (ReflTransGen)

namespace TypeSolver

/-! ## What demands something of types -/

inductive Node where
  | expr (e : Expr)
  | pattern (p : Pattern)
  /-- The function that a definition with parameters stands for. -/
  | function (d : Def)

namespace Node

def span : Node → Span
  | .expr e => e.span
  | .pattern p => p.span
  | .function d => d.span

/-- A name demands an instance of its scheme, everything else that two types are equal. -/
def Demands : Node → Constraint → Prop
  | .expr ⟨_, span, .var name⟩, c => ∃ t, c = .instanceOf name t span
  | n, c => ∃ t u, c = .equal t u n.span

end Node

structure Site where
  owner : Span
  node : Node

mutual

def Pattern.sites (owner : Span) : Pattern → List Site
  | ⟨span, form⟩ => form.sites owner span

/-- A constructor is compared twice, once for its result and once for its arguments. -/
def PatternForm.sites (owner span : Span) : PatternForm → List Site
  | .wildcard => []
  | .var name => [⟨owner, .pattern ⟨span, .var name⟩⟩]
  | .literal value => [⟨owner, .pattern ⟨span, .literal value⟩⟩]
  | .ctor name args =>
    ⟨owner, .pattern ⟨span, .ctor name args⟩⟩ :: ⟨owner, .pattern ⟨span, .ctor name args⟩⟩ ::
      patternSites owner args
  | .record fields => [⟨owner, .pattern ⟨span, .record fields⟩⟩]
  | .named inner name => ⟨owner, .pattern ⟨span, .named inner name⟩⟩ :: inner.sites owner

/-- Patterns side by side come from the last to the first. -/
def patternSites (owner : Span) : List Pattern → List Site
  | [] => []
  | p :: ps => patternSites owner ps ++ p.sites owner

end

/-- The sites of a function: without parameters it is its body. -/
def functionSites (owner : Span) (node : Node) (params : List Pattern) (body : List Site) :
    List Site :=
  if params.isEmpty then body else patternSites owner params ++ body ++ [⟨owner, node⟩]

mutual

def Expr.sites (owner : Span) : Expr → List Site
  | ⟨id, span, form⟩ => form.sites owner id span

def ExprForm.sites (owner : Span) (id : UInt32) (span : Span) : ExprForm → List Site
  | .literal value => [⟨owner, .expr ⟨id, span, .literal value⟩⟩]
  | .var name => [⟨owner, .expr ⟨id, span, .var name⟩⟩]
  | .lambda params body =>
    functionSites owner (.expr ⟨id, span, .lambda params body⟩) params (body.sites owner)
  | .apply func args => func.sites owner ++ exprSites owner args
  | .letIn defs body => defSites defs ++ body.sites owner
  | .case scrutinee branches => scrutinee.sites owner ++ branchSites branches
  | .ite cond onTrue onFalse => cond.sites owner ++ (onTrue.sites owner ++ onFalse.sites owner)
  | .list items => exprSites owner items ++ [⟨owner, .expr ⟨id, span, .list items⟩⟩]
  | .record fields => fieldSites owner fields ++ [⟨owner, .expr ⟨id, span, .record fields⟩⟩]
  | .access record _ => record.sites owner
  | .update record fields => record.sites owner ++ fieldSites owner fields ++
      [⟨owner, .expr ⟨id, span, .update record fields⟩⟩]

def exprSites (owner : Span) : List Expr → List Site
  | [] => []
  | e :: es => e.sites owner ++ exprSites owner es

def fieldSites (owner : Span) : List Field → List Site
  | [] => []
  | ⟨_, value⟩ :: fs => value.sites owner ++ fieldSites owner fs

/-- A branch encloses its pattern and its body. -/
def branchSites : List Branch → List Site
  | [] => []
  | ⟨p, body, span⟩ :: bs => p.sites span ++ body.sites span ++ branchSites bs

/-- A definition encloses its parameters and its body. Definitions side by side come from the last
to the first. -/
def defSites : List Def → List Site
  | [] => []
  | ⟨name, params, body, span⟩ :: ds =>
    defSites ds ++ functionSites span (.function ⟨name, params, body, span⟩) params (body.sites span)

end

def Program.sites (p : Program) : List Site := p.groups.flatMap fun g => defSites g.defs

/-! ## Demands and their checkpoints -/

namespace Constraint

/-- The checkpoint after a constraint was discharged. -/
def after (cp : Option Span) : Constraint → Option Span
  | .checkpoint span => some span
  | _ => cp

def afterAll (cp : Option Span) (cs : List Constraint) : Option Span := cs.foldl after cp

mutual

/-- The demands of a constraint in the order in which they are discharged, each with the checkpoint
that the solver is at, when it takes up the constraint at the checkpoint `cp`. -/
def marked (cp : Option Span) : Constraint → List (Option Span × Constraint)
  | .trivial => []
  | .checkpoint _ => []
  | .equal expected actual span => [(cp, .equal expected actual span)]
  | .conj items => markedAll cp items
  | .letIn _ _ defs body => defs.marked cp ++ body.marked cp
  | .instanceOf name ty span => [(cp, .instanceOf name ty span)]

def markedAll (cp : Option Span) : List Constraint → List (Option Span × Constraint)
  | [] => []
  | c :: cs => c.marked cp ++ markedAll (c.after cp) cs

end

variable {cp : Option Span} {c d : Constraint} {cs : List Constraint}

theorem markedAll_append (cs ds : List Constraint) :
    markedAll cp (cs ++ ds) = markedAll cp cs ++ markedAll (afterAll cp cs) ds := by
  induction cs generalizing cp with
  | nil => rfl
  | cons c cs ih =>
    rw [List.cons_append, markedAll, markedAll, ih, List.append_assoc]
    rfl

theorem marked_eq_parts (cp : Option Span) (c : Constraint) :
    c.marked cp = markedAll cp c.parts := by
  cases c <;> simp [marked, markedAll, parts]

theorem marked_and :
    (c.and d).marked cp = c.marked cp ++ d.marked (afterAll cp c.parts) := by
  rw [marked_eq_parts, parts_and, markedAll_append, ← marked_eq_parts, ← marked_eq_parts]

theorem afterAll_and : afterAll cp (c.and d).parts = afterAll (afterAll cp c.parts) d.parts := by
  rw [parts_and, afterAll, List.foldl_append]
  rfl

@[simp] theorem marked_recursive (header : Header) :
    (recursive header c).marked cp = c.marked cp := by
  rw [recursive]
  split
  · rfl
  · simp [marked]

theorem leaves_eq_marked (cp : Option Span) (c : Constraint) :
    c.leaves = (c.marked cp).map Prod.snd := by
  induction c generalizing cp with
  | conj items ih =>
    rw [leaves, marked]
    induction items generalizing cp with
    | nil => rfl
    | cons c cs ihs =>
      rw [leavesAll, markedAll, List.map_append, ← ih c (by simp) cp,
        ← ihs (fun d hd => ih d (by simp [hd])) (c.after cp)]
  | letIn vars header defs body ihd ihb =>
    rw [leaves, marked, List.map_append, ← ihd cp, ← ihb cp]
  | _ => rfl

def Steady (c : Constraint) : Prop := ∀ cp, afterAll cp c.parts = cp

theorem Steady.and (hc : c.Steady) (hd : d.Steady) : (c.and d).Steady := fun cp => by
  rw [afterAll_and, hc, hd]

theorem Steady.marked_and (hc : c.Steady) : (c.and d).marked cp = c.marked cp ++ d.marked cp := by
  rw [Constraint.marked_and, hc]

theorem steady_all (h : ∀ c ∈ cs, c.Steady) :
    (all cs).Steady ∧ (all cs).marked cp = cs.flatMap (marked cp) := by
  suffices ∀ acc : Constraint, acc.Steady → (cs.foldl and acc).Steady ∧
      (cs.foldl and acc).marked cp = acc.marked cp ++ cs.flatMap (marked cp) from
    this .trivial fun _ => rfl
  induction cs with
  | nil => exact fun acc hacc => ⟨hacc, by simp⟩
  | cons c cs ih =>
    intro acc hacc
    obtain ⟨hsteady, hmarked⟩ :=
      ih (fun d hd => h d (by simp [hd])) (acc.and c) (hacc.and (h c (by simp)))
    refine ⟨hsteady, hmarked.trans ?_⟩
    rw [hacc.marked_and, List.flatMap_cons, List.append_assoc]

end Constraint

/-! ## Constraints of sites -/

/-- A demand that is discharged at the checkpoint that its site belongs to. -/
def Site.Marks (mark : Option Span × Constraint) (site : Site) : Prop :=
  mark.1 = some site.owner ∧ site.node.Demands mark.2

namespace Constraint

/-- Wherever the constraint is discharged, its demands are those of the sites that it has there. -/
structure Attributed (sites : Span → List Site) (c : Constraint) : Prop where
  steady : c.Steady
  marks : ∀ owner, List.Forall₂ Site.Marks (c.marked (some owner)) (sites owner)

/-- The demands of the constraint are those of `sites`, since it sets its own checkpoints. -/
def Settled (sites : List Site) (c : Constraint) : Prop :=
  ∀ cp, List.Forall₂ Site.Marks (c.marked cp) sites

structure AttributedAll (sites : Span → List Site) (cs : List Constraint) : Prop where
  steady : ∀ c ∈ cs, c.Steady
  marks : ∀ owner, List.Forall₂ Site.Marks (cs.flatMap (marked (some owner))) (sites owner)

variable {sites sites' : Span → List Site} {c d : Constraint} {cs ds : List Constraint}

theorem attributed_trivial : trivial.Attributed fun _ => [] := ⟨fun _ => rfl, fun _ => .nil⟩

variable {node : Node} {span : Span}

theorem attributed_equal {expected actual : Ty} (h : node.Demands (.equal expected actual span)) :
    (equal expected actual span).Attributed fun owner => [⟨owner, node⟩] :=
  ⟨fun _ => rfl, fun _ => .cons ⟨rfl, h⟩ .nil⟩

theorem attributed_pattern (p : Pattern) (expected actual : Ty) :
    (equal expected actual p.span).Attributed fun owner => [⟨owner, .pattern p⟩] :=
  attributed_equal ⟨expected, actual, rfl⟩

theorem attributed_instanceOf {name : String} {ty : Ty}
    (h : node.Demands (.instanceOf name ty span)) :
    (instanceOf name ty span).Attributed fun owner => [⟨owner, node⟩] :=
  ⟨fun _ => rfl, fun _ => .cons ⟨rfl, h⟩ .nil⟩

theorem Attributed.and (hc : c.Attributed sites) (hd : d.Attributed sites') :
    (c.and d).Attributed fun owner => sites owner ++ sites' owner := by
  refine ⟨hc.steady.and hd.steady, fun owner => ?_⟩
  rw [hc.steady.marked_and]
  exact List.rel_append (hc.marks owner) (hd.marks owner)

theorem Attributed.letIn (hc : c.Attributed sites) (hd : d.Attributed sites') (vars : List Var)
    (header : Header) :
    (letIn vars header c d).Attributed fun owner => sites owner ++ sites' owner :=
  ⟨fun _ => rfl, fun owner => List.rel_append (hc.marks owner) (hd.marks owner)⟩

theorem Attributed.settled (hc : c.Attributed sites) (span : Span) :
    ((checkpoint span).and c).Settled (sites span) := fun cp => by
  rw [marked_and]
  exact hc.marks span

theorem Settled.and {sites sites' : List Site} (hc : c.Settled sites) (hd : d.Settled sites') :
    (c.and d).Settled (sites ++ sites') := fun cp => by
  rw [marked_and]
  exact List.rel_append (hc cp) (hd _)

theorem attributedAll_nil : AttributedAll (fun _ => []) [] := ⟨by simp, fun _ => .nil⟩

theorem Attributed.single (hc : c.Attributed sites) : AttributedAll sites [c] := by
  refine ⟨fun d hd => ?_, fun owner => ?_⟩
  · obtain rfl := List.mem_singleton.mp hd
    exact hc.steady
  · rw [List.flatMap_singleton]
    exact hc.marks owner

theorem AttributedAll.cons (hc : c.Attributed sites) (hcs : AttributedAll sites' cs) :
    AttributedAll (fun owner => sites owner ++ sites' owner) (c :: cs) := by
  refine ⟨fun d hd => ?_, fun owner => ?_⟩
  · rcases List.mem_cons.mp hd with rfl | hd
    · exact hc.steady
    · exact hcs.steady d hd
  · exact List.rel_append (hc.marks owner) (hcs.marks owner)

theorem AttributedAll.concat (hcs : AttributedAll sites cs) (hc : c.Attributed sites') :
    AttributedAll (fun owner => sites owner ++ sites' owner) (cs ++ [c]) := by
  refine ⟨fun d hd => ?_, fun owner => ?_⟩
  · rcases List.mem_append.mp hd with hd | hd
    · exact hcs.steady d hd
    · obtain rfl := List.mem_singleton.mp hd
      exact hc.steady
  · rw [List.flatMap_append, List.flatMap_singleton]
    exact List.rel_append (hcs.marks owner) (hc.marks owner)

theorem AttributedAll.all (h : AttributedAll sites cs) : (all cs).Attributed sites := by
  refine ⟨(@steady_all none _ h.steady).1, fun owner => ?_⟩
  rw [(steady_all h.steady).2]
  exact h.marks owner

end Constraint

theorem Fragment.parts_joinAll (fs : List Fragment) :
    (joinAll fs).constraint.parts = fs.reverse.flatMap (·.constraint.parts) := by
  suffices ∀ acc : Fragment, (fs.foldl (fun acc f => f.join acc) acc).constraint.parts =
      fs.reverse.flatMap (·.constraint.parts) ++ acc.constraint.parts from
    (this empty).trans (List.append_nil _)
  induction fs with
  | nil => exact fun acc => rfl
  | cons f fs ih =>
    intro acc
    rw [List.foldl_cons, ih, join, Constraint.parts_and]
    simp

theorem Fragment.parts_joinAll_cons (f : Fragment) (fs : List Fragment) :
    (joinAll (f :: fs)).constraint.parts =
      ((joinAll fs).constraint.and f.constraint).parts := by
  rw [Constraint.parts_and, parts_joinAll, parts_joinAll]
  simp

namespace Constraint

variable {c d : Constraint}

theorem Attributed.congr {sites : Span → List Site} (hc : c.Attributed sites)
    (h : d.parts = c.parts) : d.Attributed sites :=
  ⟨fun cp => by rw [h, hc.steady], fun owner => by
    rw [marked_eq_parts, h, ← marked_eq_parts]
    exact hc.marks owner⟩

theorem Settled.congr {sites : List Site} (hc : c.Settled sites) (h : d.parts = c.parts) :
    d.Settled sites := fun cp => by
  rw [marked_eq_parts, h, ← marked_eq_parts]
  exact hc cp

end Constraint

/-! ## The walk over a program -/

namespace Generate

open Constraint (Attributed AttributedAll Settled)

variable {α β : Type} {env : Environment}

def Returns (m : Generate α) (Q : α → Prop) : Prop := ∀ g a g', m g = .ok a g' → Q a

namespace Returns

variable {m : Generate α} {f : α → Generate β} {Q Q' : α → Prop} {R : β → Prop}

theorem pure {a : α} (h : Q a) : Returns (pure a) Q := fun _ _ _ hrun => by
  obtain ⟨rfl, _⟩ := pure_eq_ok hrun
  exact h

theorem bind (hm : Returns m Q) (hf : ∀ a, Q a → Returns (f a) R) : Returns (m >>= f) R :=
  fun g b g'' hrun => by
    obtain ⟨a, g', ha, hb⟩ := bind_eq_ok hrun
    exact hf a (hm g a g' ha) g' b g'' hb

theorem mono (hm : Returns m Q) (h : ∀ a, Q a → Q' a) : Returns m Q' :=
  fun g a g' hrun => h a (hm g a g' hrun)

theorem nested (hm : Returns m Q) : Returns (nested m) Q := fun g a g' hrun => by
  obtain ⟨g1, hrun, _⟩ := nested_eq_ok hrun
  exact hm _ a g1 hrun

theorem any (m : Generate α) : Returns m fun _ => True := fun _ _ _ _ => .intro

theorem of_checked {named : List Occurrence} (h : Checked env m named Q) : Returns m Q :=
  fun g a g' hrun => by
    have hg := h g
    rw [hrun] at hg
    exact hg.2

end Returns

theorem freshVars_length (n : Nat) : Returns (freshVars n) fun vs => (vs.map Ty.var).length = n :=
  (Returns.of_checked (@freshVars_checked {} n)).mono fun _ h => (List.length_map _).trans h

theorem fieldTypes_length (fs : List Field) : Returns (fieldTypes fs []) fun types =>
    (fs.filterMap fun f => Assoc.get? types f.name).length = fs.length := by
  refine (Returns.of_checked (@fieldTypes_checked {} fs [])).mono fun types htypes => ?_
  rw [List.length_filterMap_eq_countP, List.countP_eq_length]
  intro f hf
  rw [Option.isSome_iff_ne_none]
  exact fun hnone => Assoc.get?_eq_none_iff.mp hnone (htypes.2 f hf)

theorem fieldBindings_attributed (names : List String) :
    Returns (fieldBindings names) fun fs => (Fragment.joinAll fs).constraint.Attributed fun _ => [] := by
  induction names with
  | nil => exact .pure Constraint.attributed_trivial
  | cons name names ih =>
    refine .bind (.any _) fun v _ => .bind ih fun fs hfs => .pure ?_
    exact (hfs.and Constraint.attributed_trivial).congr (Fragment.parts_joinAll_cons _ _)

mutual

theorem pattern_attributed : ∀ (p : Pattern) (expected : Ty),
    Returns (pattern env p expected) fun f => f.constraint.Attributed (p.sites ·)
  | ⟨span, form⟩, expected => by
    exact patternForm_attributed span form expected

theorem patternForm_attributed (span : Span) : ∀ (p : PatternForm) (expected : Ty),
    Returns (patternForm env span p expected) fun f => f.constraint.Attributed (p.sites · span)
  | .wildcard, expected => by
    exact .pure Constraint.attributed_trivial
  | .var name, expected => by
    exact .bind (.any _) fun v _ => .pure (Constraint.attributed_pattern ⟨span, .var name⟩ _ _)
  | .literal value, expected => by
    exact .pure (Constraint.attributed_pattern ⟨span, .literal value⟩ _ _)
  | .ctor name args, expected => by
    refine .bind (.any _) fun r _ => .bind (freshVars_length args.length) fun vars hlen => ?_
    refine .bind (patterns_attributed args _ hlen.symm) fun inner hinner => .pure ?_
    have hcompare := Constraint.attributed_pattern ⟨span, .ctor name args⟩
    exact ((hcompare _ (.curried r.1 r.2)).single.cons (hcompare expected r.2)).all.and hinner
  | .record fields, expected => by
    refine .bind (.any _) fun ext _ => .bind (fieldBindings_attributed fields) fun fs hfs => .pure ?_
    exact (Constraint.attributed_pattern ⟨span, .record fields⟩ expected _).and hfs
  | .named inner name, expected => by
    refine .bind (.any _) fun v _ => .bind (pattern_attributed inner expected) fun f hf => .pure ?_
    exact (Constraint.attributed_pattern ⟨span, .named inner name⟩ expected (.var v)).and hf

theorem patterns_attributed : ∀ (ps : List Pattern) (ts : List Ty), ps.length = ts.length →
    Returns (patterns env ps ts) fun fs =>
      (Fragment.joinAll fs).constraint.Attributed (patternSites · ps)
  | [], ts, _ => by
    rw [patterns]
    · exact .pure Constraint.attributed_trivial
    · simp
  | p :: ps, [], hlen => by cases hlen
  | p :: ps, t :: ts, hlen => by
    refine .bind (pattern_attributed p t) fun f hf => ?_
    refine .bind (patterns_attributed ps ts (Nat.succ.inj hlen)) fun fs hfs => .pure ?_
    exact (hfs.and hf).congr (Fragment.parts_joinAll_cons _ _)

end

theorem function_attributed {params : List Pattern} {span : Span} {expected : Ty}
    {body : Ty → Generate Constraint} {sites : Span → List Site} {node : Node}
    (hnode : ∀ t u, node.Demands (.equal t u span))
    (hbody : ∀ t, Returns (body t) (·.Attributed sites)) :
    Returns (function env params span expected body)
      (·.Attributed fun owner => functionSites owner node params (sites owner)) := by
  rw [function]
  simp only [functionSites]
  split
  · exact hbody expected
  · refine .bind (freshVars_length params.length) fun vars hlen => .bind (.any _) fun ret _ => ?_
    refine .bind (.nested (patterns_attributed params _ hlen.symm)) fun fs hfs => ?_
    refine .bind (hbody ret) fun c hc => .pure ?_
    have hparts := (hfs.letIn hc (Fragment.joinAll fs).vars (Fragment.joinAll fs).env).single
    exact (hparts.concat (Constraint.attributed_equal (hnode expected _))).all

theorem marked_group (fs : List Fragment) (c : Constraint) (cp : Option Span) :
    ((groupScheme fs).around c).marked cp =
      (Fragment.joinAll fs).constraint.marked cp ++ c.marked cp := by
  show (Constraint.recursive _ _).marked cp ++ c.marked cp = _
  rw [Constraint.marked_recursive]

mutual

theorem expr_attributed : ∀ (e : Expr) (expected : Ty),
    Returns (expr env e expected) (·.Attributed (e.sites ·))
  | ⟨id, span, form⟩, expected => by
    exact .bind (.any _) fun _ _ => exprForm_attributed id span form expected

theorem exprForm_attributed (id : UInt32) (span : Span) : ∀ (e : ExprForm) (expected : Ty),
    Returns (exprForm env span e expected) (·.Attributed (e.sites · id span))
  | .literal value, expected => by
    have hnode : (Node.expr ⟨id, span, .literal value⟩).Demands
        (.equal expected (literalType value) span) := ⟨_, _, rfl⟩
    exact .pure (Constraint.attributed_equal hnode)
  | .var name, expected => by
    have hnode : (Node.expr ⟨id, span, .var name⟩).Demands (.instanceOf name expected span) :=
      ⟨_, rfl⟩
    exact .pure (Constraint.attributed_instanceOf hnode)
  | .lambda params body, expected => by
    have hnode : ∀ t u, (Node.expr ⟨id, span, .lambda params body⟩).Demands (.equal t u span) :=
      fun t u => ⟨t, u, rfl⟩
    exact function_attributed hnode (expr_attributed body)
  | .apply func args, expected => by
    refine .bind (freshVars_length args.length) fun vars hlen => ?_
    refine .bind (expr_attributed func _) fun c hc => ?_
    exact .bind (exprs_attributed args _ hlen.symm) fun cs hcs => .pure (hcs.cons hc).all
  | .letIn defs body, expected => by
    refine .bind (.nested (definitions_attributed defs)) fun fs hfs => ?_
    refine .bind (expr_attributed body expected) fun c hc => .pure ⟨fun _ => rfl, fun owner => ?_⟩
    rw [marked_group]
    exact List.rel_append (hfs _) (hc.marks owner)
  | .case scrutinee bs, expected => by
    refine .bind (.any _) fun subject _ => .bind (expr_attributed scrutinee subject) fun c hc => ?_
    exact .bind (branches_attributed subject expected bs) fun cs hcs => .pure (hcs.cons hc).all
  | .ite cond onTrue onFalse, expected => by
    refine .bind (expr_attributed cond .bool) fun c hc => ?_
    refine .bind (expr_attributed onTrue expected) fun d hd => ?_
    refine .bind (expr_attributed onFalse expected) fun e he => .pure ?_
    exact ((he.single.cons hd).cons hc).all
  | .list items, expected => by
    refine .bind (.any _) fun elem _ => .bind (exprs_attributed items _ (by simp)) fun cs hcs => ?_
    have hnode : (Node.expr ⟨id, span, .list items⟩).Demands
        (.equal expected (.list elem) span) := ⟨_, _, rfl⟩
    exact .pure (hcs.concat (Constraint.attributed_equal hnode)).all
  | .record fs, expected => by
    refine .bind (fields_attributed fs) fun r hcs => .pure ?_
    have hnode : (Node.expr ⟨id, span, .record fs⟩).Demands
        (.equal expected (.record (Assoc.ofList r.1) none) span) := ⟨_, _, rfl⟩
    exact (hcs.concat (Constraint.attributed_equal hnode)).all
  | .access record field, expected => by
    exact .bind (.any _) fun ext _ => expr_attributed record _
  | .update record fs, expected => by
    refine .bind (.any _) fun ext _ => .bind (fieldTypes_length fs) fun types hlen => ?_
    refine .bind (expr_attributed record _) fun c hc => ?_
    refine .bind (fieldValues_attributed fs _ hlen.symm) fun cs hcs => .pure ?_
    have hnode : (Node.expr ⟨id, span, .update record fs⟩).Demands
        (.equal expected (.record types (some ext)) span) := ⟨_, _, rfl⟩
    exact ((hcs.cons hc).concat (Constraint.attributed_equal hnode)).all

theorem exprs_attributed : ∀ (es : List Expr) (ts : List Ty), es.length = ts.length →
    Returns (exprs env es ts) (AttributedAll (exprSites · es))
  | [], ts, _ => by
    rw [exprs]
    · exact .pure Constraint.attributedAll_nil
    · simp
  | e :: es, [], hlen => by cases hlen
  | e :: es, t :: ts, hlen => by
    refine .bind (expr_attributed e t) fun c hc => ?_
    exact .bind (exprs_attributed es ts (Nat.succ.inj hlen)) fun cs hcs => .pure (hcs.cons hc)

theorem fieldValues_attributed : ∀ (fs : List Field) (ts : List Ty), fs.length = ts.length →
    Returns (fieldValues env fs ts) (AttributedAll (fieldSites · fs))
  | [], ts, _ => by
    rw [fieldValues]
    · exact .pure Constraint.attributedAll_nil
    · simp
  | f :: fs, [], hlen => by cases hlen
  | ⟨name, value⟩ :: fs, t :: ts, hlen => by
    refine .bind (expr_attributed value t) fun c hc => ?_
    exact .bind (fieldValues_attributed fs ts (Nat.succ.inj hlen)) fun cs hcs => .pure (hcs.cons hc)

theorem fields_attributed : ∀ (fs : List Field),
    Returns (fields env fs) fun r => AttributedAll (fieldSites · fs) r.2
  | [] => by
    exact .pure Constraint.attributedAll_nil
  | ⟨name, value⟩ :: fs => by
    refine .bind (.any _) fun t _ => .bind (expr_attributed value t) fun c hc => ?_
    exact .bind (fields_attributed fs) fun r hcs => .pure (hcs.cons hc)

theorem branches_attributed (subject expected : Ty) : ∀ (bs : List Branch),
    Returns (branches env subject expected bs) (AttributedAll fun _ => branchSites bs)
  | [] => by
    exact .pure Constraint.attributedAll_nil
  | ⟨p, body, span⟩ :: bs => by
    refine .bind (.nested (pattern_attributed p subject)) fun f hf => ?_
    refine .bind (expr_attributed body expected) fun c hc => ?_
    refine .bind (branches_attributed subject expected bs) fun cs hcs => .pure (hcs.cons ?_)
    exact ⟨fun _ => rfl, fun owner =>
      List.rel_append (hf.settled span (some owner)) (hc.settled span (some owner))⟩

theorem definitions_attributed : ∀ (ds : List Def), Returns (definitions env ds) fun fs =>
    (Fragment.joinAll fs).constraint.Settled (defSites ds)
  | [] => by
    exact .pure fun _ => .nil
  | ⟨name, params, body, span⟩ :: ds => by
    have hnode : ∀ t u, (Node.function ⟨name, params, body, span⟩).Demands (.equal t u span) :=
      fun t u => ⟨t, u, rfl⟩
    refine .bind (.any _) fun v _ => ?_
    refine .bind (function_attributed hnode (expr_attributed body)) fun c hc => ?_
    refine .bind (definitions_attributed ds) fun fs hfs => .pure ?_
    exact (hfs.and (hc.settled span)).congr (Fragment.parts_joinAll_cons _ _)

end

theorem groups_settled (gs : List Group) : Returns (groups env gs) fun schemes =>
    (schemes.foldr Scheme.around .trivial).Settled (gs.flatMap fun g => defSites g.defs) := by
  induction gs with
  | nil => exact .pure fun _ => .nil
  | cons group gs ih =>
    refine .bind (.nested (definitions_attributed group.defs)) fun fs hfs => ?_
    refine .bind ih fun schemes hschemes => .pure fun cp => ?_
    rw [List.foldr_cons, marked_group]
    exact List.rel_append (hfs cp) (hschemes cp)

end Generate

/-! ## Errors of a run -/

def Constraint.span? : Constraint → Option Span
  | .equal _ _ span => some span
  | .instanceOf _ _ span => some span
  | _ => none

theorem Node.Demands.span? {n : Node} {c : Constraint} (h : n.Demands c) :
    c.span? = some n.span := by
  rw [Node.Demands.eq_def] at h
  split at h
  · obtain ⟨t, rfl⟩ := h
    rfl
  · obtain ⟨t, u, rfl⟩ := h
    rfl

theorem Prepared.settled {program : Program} {env : Environment} {p : Prepared}
    (h : ofProgram program env = .ok p) : p.constraint.Settled program.sites := by
  obtain ⟨_, _, _, c, g, _, _, hprogram, rfl⟩ := ofProgram_eq_ok h
  have hreturns : Generate.Returns (Generate.program env program)
      (·.Settled program.sites) := .bind (Generate.groups_settled _) fun _ h => .pure h
  exact hreturns _ c g hprogram

namespace Moment

variable {fuel : Nat} {m m' : Moment}

/-- The demands of tasks that are taken up at the checkpoint `cp`, each with the checkpoint at which
it is discharged. -/
def marksOf : Option Span → List Task → List (Option Span × Constraint)
  | _, [] => []
  | cp, .solve _ c :: ws => c.marked cp ++ marksOf (c.after cp) ws
  | _, .leave _ _ _ _ _ body saved :: ws => body.marked saved ++ marksOf saved ws
  | _, .restore saved :: ws => marksOf saved ws

def marks (m : Moment) : List (Option Span × Constraint) := marksOf m.state.checkpoint m.work

theorem marksOf_items (cp : Option Span) (ctx : Context) (items : List Constraint)
    (ws : List Task) : marksOf cp (items.map (.solve ctx) ++ ws) =
      Constraint.markedAll cp items ++ marksOf (Constraint.afterAll cp items) ws := by
  induction items generalizing cp with
  | nil => rfl
  | cons c cs ih =>
    rw [List.map_cons, List.cons_append, marksOf, ih, Constraint.markedAll, List.append_assoc]
    rfl

theorem ahead_eq_marks (m : Moment) : m.ahead = m.marks.map Prod.snd := by
  obtain ⟨ws, st, made⟩ := m
  show ws.flatMap _ = (marksOf st.checkpoint ws).map Prod.snd
  generalize st.checkpoint = cp
  induction ws generalizing cp with
  | nil => rfl
  | cons w ws ih =>
    cases w with
    | solve ctx c =>
      rw [List.flatMap_cons, ih, marksOf, List.map_append, ← Constraint.leaves_eq_marked]
    | leave ctx outer vars header defs body saved =>
      rw [List.flatMap_cons, ih, marksOf, List.map_append, ← Constraint.leaves_eq_marked]
    | restore saved =>
      rw [List.flatMap_cons, ih, marksOf]
      rfl

/-- What comes of a demand that is discharged: nothing, or one more error. -/
def Notes (m m' : Moment) (c : Constraint) : Prop :=
  m'.state.errors = m.state.errors ∨ ∃ mismatch span, c.span? = some span ∧
    m'.state.errors = m.state.errors ++ [⟨mismatch, span, m.state.checkpoint⟩]

theorem errors_of_equate_cases {st st' : Solver} {expected actual : Ty} {span : Span} {c : Constraint}
    (hc : c.span? = some span) (h : st.equate fuel expected actual span = .done () st') :
    st'.checkpoint = st.checkpoint ∧ (st'.errors = st.errors ∨ ∃ mismatch span, c.span? = some span ∧
      st'.errors = st.errors ++ [⟨mismatch, span, st.checkpoint⟩]) := by
  rcases Solver.equate_eq_done h with ⟨s, _, rfl⟩ | ⟨mismatch, s, _, rfl⟩
  · exact ⟨rfl, .inl rfl⟩
  · rw [Solver.report]
    split
    · exact ⟨rfl, .inl rfl⟩
    · exact ⟨rfl, .inr ⟨mismatch, span, hc, rfl⟩⟩

theorem Step.marks_cases (h : Step fuel m m') :
    m'.marks = m.marks ∧ m'.state.errors = m.state.errors ∨
    ∃ ctx c ws, m.work = .solve ctx c :: ws ∧ m.marks = (m.state.checkpoint, c) :: m'.marks ∧
      Notes m m' c := by
  cases h with
  | trivial => exact .inl ⟨rfl, rfl⟩
  | checkpoint => exact .inl ⟨rfl, rfl⟩
  | @equal _ expected actual span _ _ _ _ hrun =>
    obtain ⟨hcp, herrors⟩ := errors_of_equate_cases (c := .equal expected actual span) rfl hrun
    refine .inr ⟨_, _, _, rfl, ?_, herrors⟩
    simp only [marks, marksOf, Constraint.marked, Constraint.after, hcp]
    rfl
  | @instanceOf _ name ty span _ _ _ _ hrun =>
    obtain ⟨_, _, _, s, _, _, _, hrun⟩ := Solver.equateInstance_eq_done hrun
    obtain ⟨hcp, herrors⟩ := errors_of_equate_cases (c := .instanceOf name ty span) rfl hrun
    refine .inr ⟨_, _, _, rfl, ?_, herrors⟩
    simp only [marks, marksOf, Constraint.marked, Constraint.after, hcp]
    rfl
  | conj => exact .inl ⟨marksOf_items .., rfl⟩
  | enter =>
    refine .inl ⟨?_, rfl⟩
    simp only [marks, marksOf, Constraint.marked, List.append_assoc]
    rfl
  | leave => exact .inl ⟨rfl, rfl⟩
  | restore => exact .inl ⟨rfl, rfl⟩

/-- The error was recorded on the way from `start` to `m`, at the moment at which the demand `c` was
discharged and the demands of `rest` were still left. -/
def Records (fuel : Nat) (start m : Moment) (c : Constraint) (rest : List Constraint)
    (e : TypeError) : Prop :=
  ∃ m1 m2 ctx ws, Steps fuel start m1 ∧ m1.work = .solve ctx c :: ws ∧ m1.ahead = c :: rest ∧
    Step fuel m1 m2 ∧ m2.state.errors = m1.state.errors ++ [e] ∧ Steps fuel m2 m

theorem Steps.exists_mark {start : Moment} (h : Steps fuel start m)
    (hstart : start.state.errors = []) :
    m.marks <:+ start.marks ∧ ∀ e ∈ m.state.errors, ∃ done c rest,
      start.marks = done ++ (e.checkpoint, c) :: rest ∧ c.span? = some e.span ∧
      Records fuel start m c (rest.map Prod.snd) e := by
  induction h with
  | refl => exact ⟨List.suffix_rfl, by simp [hstart]⟩
  | @tail m m' hsteps hstep ih =>
    obtain ⟨⟨done, hdone⟩, hold⟩ := ih
    have hkept : ∀ e ∈ m.state.errors, ∃ done c rest,
        start.marks = done ++ (e.checkpoint, c) :: rest ∧ c.span? = some e.span ∧
        Records fuel start m' c (rest.map Prod.snd) e := fun e he => by
      obtain ⟨done, c, rest, hmarks, hspan, m1, m2, ctx, ws, h1, hwork, hahead, h2, herr, h3⟩ :=
        hold e he
      exact ⟨done, c, rest, hmarks, hspan, m1, m2, ctx, ws, h1, hwork, hahead, h2, herr, h3.tail hstep⟩
    rcases hstep.marks_cases with ⟨hmarks, herrors⟩ | ⟨ctx, c, ws, hwork, hmarks, hnotes⟩
    · rw [hmarks, herrors]
      exact ⟨⟨done, hdone⟩, hkept⟩
    · refine ⟨⟨done ++ [(m.state.checkpoint, c)], by simp [← hdone, hmarks]⟩, fun e he => ?_⟩
      rcases hnotes with herrors | ⟨mismatch, span, hspan, herrors⟩
      · exact hkept e (herrors ▸ he)
      · rw [herrors] at he
        rcases List.mem_append.mp he with he | he
        · exact hkept e he
        · obtain rfl := List.mem_singleton.mp he
          refine ⟨done, c, m'.marks, by rw [← hdone, hmarks], hspan, m, m', ctx, ws, hsteps, hwork,
            ?_, hstep, herrors, .refl⟩
          rw [ahead_eq_marks, hmarks]
          rfl

/-- Each error of a run of the solver belongs to the innermost definition or branch around the
expression, pattern or definition whose demand failed. The demands of the constraint correspond to
the sites of the program one by one, so each error has a number: the one of the demand that was
discharged when the error was recorded, and of the site that made this demand. -/
theorem errors_attributed {program : Program} {env : Environment} {p : Prepared} {config : Config}
    (hp : Prepared.ofProgram program env = .ok p) (hm : Steps fuel (p.start config) m) :
    List.Forall₂ (fun c site => site.node.Demands c) p.constraint.leaves program.sites ∧
    ∀ e ∈ m.state.errors, ∃ i c site, p.constraint.leaves[i]? = some c ∧
      program.sites[i]? = some site ∧
      Records fuel (p.start config) m c (p.constraint.leaves.drop (i + 1)) e ∧
      e.span = site.node.span ∧ e.checkpoint = some site.owner := by
  have hmarks := Prepared.settled hp none
  have hleaves := Constraint.leaves_eq_marked none p.constraint
  have hstart : (p.start config).marks = p.constraint.marked none := List.append_nil _
  refine ⟨?_, fun e he => ?_⟩
  · rw [hleaves, List.forall₂_map_left_iff]
    exact hmarks.imp fun mark site h => h.2
  · obtain ⟨done, c, rest, hsplit, hspan, hrecords⟩ := (hm.exists_mark rfl).2 e he
    rw [hstart] at hsplit
    have hget : (p.constraint.marked none)[done.length]? = some (e.checkpoint, c) := by
      rw [hsplit]; simp
    obtain ⟨site, hsite, hcp, hdemands⟩ := exists_getElem?_of_forall₂ (List.Forall₂.flip hmarks) hget
    refine ⟨done.length, c, site, ?_, hsite, ?_, ?_, hcp⟩
    · rw [hleaves, List.getElem?_map, hget]
      rfl
    · rw [hleaves, hsplit, List.map_append, List.map_cons, List.append_cons, List.drop_left' (by simp)]
      exact hrecords
    · exact Option.some.inj (hspan.symm.trans hdemands.span?)

/-- A number is matched with a number and with a text, each in a branch of its own. -/
def twoBranches : Program where
  groups := [⟨[{ name := "main", params := [], span := .wholeLine 1, body := ⟨0, .wholeLine 2,
    .case ⟨1, .wholeLine 3, .literal (.int 1)⟩
      [{ pattern := ⟨.wholeLine 5, .literal (.int 1)⟩, span := .wholeLine 4,
         body := ⟨2, .wholeLine 6, .literal (.bool true)⟩ },
       { pattern := ⟨.wholeLine 8, .literal (.string "one")⟩, span := .wholeLine 7,
         body := ⟨3, .wholeLine 9, .literal (.bool false)⟩ }]⟩ }]⟩]

theorem twoBranches_solved : ∃ p, Prepared.ofProgram twoBranches {} = .ok p ∧ ∃ st,
    Solver.solve 20 p.context p.constraint (p.start {}).state = .done () st ∧
    st.errors.map (fun e => (e.span, e.checkpoint)) =
      [(.wholeLine 8, some (.wholeLine 7))] := by
  generalize hprepared : Prepared.ofProgram twoBranches {} = r
  cbv at hprepared
  refine ⟨_, hprepared.symm, ?_⟩
  generalize hrun : Solver.solve 20 _ _ _ = r'
  cbv at hrun
  exact ⟨_, hrun.symm, rfl⟩

/-- The text belongs to the second branch. -/
theorem errors_attributed_twoBranches : ∃ p m e, Prepared.ofProgram twoBranches {} = .ok p ∧
    Steps 20 (p.start {}) m ∧ m.work = [] ∧ m.state.errors = [e] ∧ e.span = .wholeLine 8 ∧
    e.checkpoint = some (.wholeLine 7) ∧ ∃ i c site, p.constraint.leaves[i]? = some c ∧
      twoBranches.sites[i]? = some site ∧
      Records 20 (p.start {}) m c (p.constraint.leaves.drop (i + 1)) e ∧
      e.span = site.node.span ∧ e.checkpoint = some site.owner := by
  obtain ⟨p, hp, st, hsolve, hplaces⟩ := twoBranches_solved
  obtain ⟨e, herrors, hplace⟩ := List.map_eq_singleton_iff.mp hplaces
  obtain ⟨hspan, hcp⟩ := Prod.mk.inj hplace
  obtain ⟨made, hsteps⟩ := steps_of_solve [] p.store.ranks hsolve
  have hm : Steps 20 (p.start {}) ⟨[], st, made⟩ := hsteps
  exact ⟨p, _, e, hp, hm, rfl, herrors, hspan, hcp,
    (errors_attributed hp hm).2 e (by rw [herrors]; exact List.mem_singleton_self e)⟩

end Moment
end TypeSolver
