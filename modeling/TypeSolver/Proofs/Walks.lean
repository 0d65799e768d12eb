import TypeSolver.Proofs.Generated

/-!
# TypeSolver.Proofs.Walks

What one part of the walk over a program does: it ends at the rank at which it began, also when it
fails (`Walks`). What it returns is described with respect to a store in which the walk may end
later, so that nothing has to be carried from one store to the next.

A property of constraints at each rank holds of the constraints of all programs if the parts of
constraints pass it on (`Carries`, `groups_walks`). For what patterns contribute to a boundary, this
is asked of the walk over the patterns itself.
-/

namespace TypeSolver

namespace Store

/-- The variable `v` was made at rank `k`, and nothing happened to it since. -/
def Made (s : Store) (v : Var) (k : Rank) : Prop :=
  ∃ hint, s.slots[v]? = some (.root (.unbound k hint))

/-- The variables of `s` are in `s'` as they are in `s`. -/
def Continues (s s' : Store) : Prop :=
  ∀ (v : Var) (slot : Slot), s.slots[v]? = some slot → s'.slots[v]? = some slot

theorem Continues.refl (s : Store) : s.Continues s := fun _ _ h => h

variable {s s' : Store}

theorem Continues.trans {s'' : Store} (h : s.Continues s') (h' : s'.Continues s'') :
    s.Continues s'' :=
  fun v slot hv => h' v slot (h v slot hv)

theorem Made.continues {v : Var} {k : Rank} (h : s.Made v k) (hs : s.Continues s') :
    s'.Made v k := h.imp fun _ hv => hs v _ hv

theorem continues_fresh (s : Store) (k : Rank) (hint : Option String) :
    s.Continues (s.fresh k hint).2 := by
  intro v slot hv
  have hlt : v < s.slots.size := (Array.getElem?_eq_some_iff.mp hv).1
  show (s.slots.push _)[v]? = some slot
  rw [Array.getElem?_push_lt hlt, ← hv, Array.getElem?_eq_getElem hlt]

theorem made_fresh (s : Store) (k : Rank) (hint : Option String) :
    (s.fresh k hint).2.Made (s.fresh k hint).1 k :=
  ⟨hint, Array.getElem?_push_size⟩

theorem freshNamed_made (k : Rank) (names : List String) (s : Store) :
    s.Continues (s.freshNamed k names).2 ∧ (s.freshNamed k names).1.length = names.length ∧
      ∀ v ∈ (s.freshNamed k names).1, (s.freshNamed k names).2.Made v k := by
  induction names generalizing s with
  | nil => exact ⟨.refl s, rfl, fun v hv => absurd hv List.not_mem_nil⟩
  | cons name names ih =>
    obtain ⟨hcont, hlen, hmade⟩ := ih (s.fresh k (some name)).2
    refine ⟨(continues_fresh s k (some name)).trans hcont, congrArg (· + 1) hlen, fun v hv => ?_⟩
    rcases List.mem_cons.mp hv with rfl | hv
    · exact (made_fresh s k (some name)).continues hcont
    · exact hmade v hv

end Store

/-- The variables of a type were made at rank `k` or further outside. -/
def Ty.MadeBy (s : Store) (k : Rank) (t : Ty) : Prop := ∀ v ∈ t.vars, ∃ j ≤ k, s.Made v j

theorem Ty.MadeBy.succ {s : Store} {k : Rank} {t : Ty} (h : t.MadeBy s k) : t.MadeBy s (k + 1) := by
  intro v hv
  obtain ⟨j, hj, hmade⟩ := h v hv
  exact ⟨j, Nat.le_succ_of_le hj, hmade⟩

namespace Constraint

variable {B : Constraint → Prop} (hB : ∀ {c}, B c ↔ ∀ p ∈ c.parts, B p)

include hB

theorem and_iff_of_parts {c d : Constraint} : B (c.and d) ↔ B c ∧ B d := by
  rw [hB, parts_and, hB (c := c), hB (c := d)]
  simp only [List.mem_append, or_imp, forall_and]

theorem all_of_parts {cs : List Constraint} (h : ∀ c ∈ cs, B c) : B (all cs) := by
  suffices ∀ acc, B acc → B (cs.foldl and acc) from
    this _ (hB.mpr fun _ hp => absurd hp List.not_mem_nil)
  induction cs with
  | nil => exact fun acc hacc => hacc
  | cons c cs ih =>
    exact fun acc hacc => ih (fun d hd => h d (by simp [hd])) _
      ((and_iff_of_parts hB).mpr ⟨hacc, h c (by simp)⟩)

end Constraint

/-- Fragments are joined one by one. -/
theorem Fragment.joinAll_induction {P Q : Fragment → Prop} (empty : P .empty)
    (join : ∀ f acc, Q f → P acc → P (f.join acc)) {fs : List Fragment} (h : ∀ f ∈ fs, Q f) :
    P (joinAll fs) := by
  suffices ∀ acc, P acc → P (fs.foldl (fun acc f => f.join acc) acc) from this _ empty
  induction fs with
  | nil => exact fun acc hacc => hacc
  | cons f fs ih =>
    exact fun acc hacc => ih (fun g hg => h g (by simp [hg])) _ (join f acc (h f (by simp)) hacc)

namespace Generate

variable {α β : Type} {s : Store} {g : Generator} {env : Environment}

/-- A part of the walk that starts at `g` ends at the rank of `g`, also when it fails. It keeps the
variables that there were, and if the whole walk ends with `s`, what it returns has the property. -/
def Walks (s : Store) (m : Generate α) (g : Generator) (Q : α → Prop) : Prop :=
  match m g with
  | .ok a g' => g'.rank = g.rank ∧ g.store.Continues g'.store ∧ (g'.store.Continues s → Q a)
  | .error _ g' => g'.rank = g.rank

variable {Q : α → Prop} {m : Generate α} {R : β → Prop} {k : Rank}

theorem Walks.pure {a : α} (h : Q a) : Walks s (Pure.pure a) g Q :=
  ⟨rfl, .refl _, fun _ => h⟩

/-- What was returned on the way may be used at the end. -/
theorem Walks.bind {f : α → Generate β} (hm : Walks s m g Q)
    (hf : ∀ a g', g'.rank = g.rank → Walks s (f a) g' fun b => Q a → R b) :
    Walks s (m >>= f) g R := by
  rw [Walks] at hm ⊢
  show match EStateM.bind m f g with
    | .ok a g' => _
    | .error _ g' => _
  rw [EStateM.bind.eq_def]
  cases hrun : m g with
  | error e g1 =>
    rw [hrun] at hm
    exact hm
  | ok a g1 =>
    rw [hrun] at hm
    obtain ⟨hrank, hcont, hQ⟩ := hm
    have hrest := hf a g1 hrank
    rw [Walks] at hrest
    simp only
    split
    · rename_i b g2 hb
      rw [hb] at hrest
      obtain ⟨hrank2, hcont2, hR⟩ := hrest
      exact ⟨hrank2.trans hrank, hcont.trans hcont2, fun hs => hR hs (hQ (hcont2.trans hs))⟩
    · rename_i e g2 he
      rw [he] at hrest
      exact hrest.trans hrank

theorem Walks.mono {R : α → Prop} (h : Walks s m g Q) (hQ : ∀ a, Q a → R a) : Walks s m g R := by
  rw [Walks] at h ⊢
  split at h
  · exact ⟨h.1, h.2.1, fun hs => hQ _ (h.2.2 hs)⟩
  · exact h

theorem Walks.nested (h : Walks s m { g with rank := g.rank + 1 } Q) :
    Walks s (Generate.nested m) g Q := by
  rw [Walks] at h ⊢
  rw [Generate.nested]
  split at h
  · rename_i a g' hok
    simp only [hok]
    exact ⟨by show g'.rank - 1 = g.rank; rw [h.1, Nat.add_sub_cancel], h.2⟩
  · rename_i e g' herr
    simp only [herr]
    rw [h, Nat.add_sub_cancel]

theorem fresh_walks : Walks s fresh g fun v => s.Made v g.rank :=
  ⟨rfl, Store.continues_fresh g.store g.rank none, fun hs => (Store.made_fresh ..).continues hs⟩

theorem madeBy_var {v : Var} (h : s.Made v k) : (Ty.var v).MadeBy s k := by
  intro w hw
  obtain rfl := Ty.mem_vars_var.mp hw
  exact ⟨k, Nat.le_refl k, h⟩

theorem Walks.freshType {f : Ty → Generate β}
    (hf : ∀ v g', g'.rank = g.rank → Walks s (f (.var v)) g' fun b => s.Made v g.rank → R b) :
    Walks s (Generate.freshType >>= f) g R := by
  have heq : (Generate.freshType >>= f) = fresh >>= fun v => f (.var v) := rfl
  rw [heq]
  exact .bind fresh_walks hf

theorem freshVars_walks (n : Nat) :
    Walks s (freshVars n) g fun vs => ∀ v ∈ vs, s.Made v g.rank := by
  induction n generalizing g with
  | zero => exact .pure (by simp)
  | succ n ih =>
    refine .bind fresh_walks fun v g1 hr1 => .bind ih fun vs g2 _ => .pure fun hvs hv w hw => ?_
    rcases List.mem_cons.mp hw with rfl | hw
    · exact hv
    · rw [← hr1]; exact hvs w hw

theorem note_walks (id : UInt32) (t : Ty) : Walks s (note id t) g fun _ => True :=
  ⟨rfl, .refl _, fun _ => .intro⟩

theorem exists_vars {params names : List String} {vars : List Var}
    (hlen : vars.length = params.length) (h : ∀ x ∈ names, x ∈ params) :
    ∃ vs : List Var, names.filterMap (Assoc.get? (assignment params vars)) = vs.map Ty.var ∧
      vs.length = names.length ∧ ∀ v ∈ vs, v ∈ vars := by
  induction names with
  | nil => exact ⟨[], rfl, rfl, fun v hv => absurd hv List.not_mem_nil⟩
  | cons x names ih =>
    obtain ⟨t, ht⟩ := exists_assignment hlen (h x (by simp))
    obtain ⟨v, rfl, hv⟩ := mem_of_assignment ht
    obtain ⟨vs, hvs, hlen', hmem⟩ := ih fun y hy => h y (by simp [hy])
    refine ⟨v :: vs, by rw [List.filterMap_cons, ht, hvs]; rfl, by simp [hlen'], fun w hw => ?_⟩
    rcases List.mem_cons.mp hw with rfl | hw
    · exact (List.of_mem_zip hv).2
    · exact hmem w hw

/-- What a constructor builds is its result type over variables, and what it takes is over the same
variables. -/
structure Builds (env : Environment) (name : String) (r : List Ty × Ty) : Prop where
  result : ∃ (c : Constructor) (vs : List Var), Assoc.get? env.constructors name = some c ∧
    vs.length = c.params.length ∧ r.2 = .app c.result (vs.map Ty.var)
  args : ∀ t ∈ r.1, ∀ v ∈ t.vars, v ∈ r.2.vars

theorem constructor_walks (name : String) (span : Span) :
    Walks s (constructor env name span) g fun r =>
      r.2.MadeBy s g.rank ∧ Builds env name r := by
  rw [Walks, constructor, Environment.instantiateConstructor]
  cases hget : Assoc.get? env.constructors name with
  | none => rfl
  | some c =>
    obtain ⟨hcont, hlen, hmade⟩ := Store.freshNamed_made g.rank c.params g.store
    cases hvars : g.store.freshNamed g.rank c.params with
    | mk vars s1 =>
    rw [hvars] at hcont hlen hmade
    cases hargs : Signature.toTyList (assignment c.params vars) c.args with
    | error e => simp only [hvars, hargs]
    | ok args =>
      simp only [hvars, hargs]
      refine ⟨.intro, hcont, fun hs => ?_⟩
      obtain ⟨vs, hvs, hlen', hmem⟩ := exists_vars hlen fun x hx => hx
      refine ⟨fun v hv => ?_, ⟨c, vs, hget, hlen', by rw [hvs]⟩, fun t ht v hv => ?_⟩
      · rw [hvs, Ty.mem_vars_app] at hv
        obtain ⟨u, hu, hv⟩ := hv
        obtain ⟨w, hw, rfl⟩ := List.mem_map.mp hu
        exact madeBy_var ((hmade w (hmem w hw)).continues hs) v hv
      · obtain ⟨a, _, hat⟩ := exists_of_forall₂_right (Signature.toTyList_ok.mp hargs) ht
        obtain ⟨x, u, hu, hv⟩ := Signature.mem_vars_toTy hat hv
        obtain ⟨_, _, hx⟩ := mem_of_assignment hu
        exact Ty.mem_vars_app.mpr
          ⟨u, List.mem_filterMap.mpr ⟨x, (List.of_mem_zip hx).1, hu⟩, hv⟩

theorem madeBy_curried {ts : List Ty} {t : Ty} (hts : ∀ u ∈ ts, u.MadeBy s k) (ht : t.MadeBy s k) :
    (Ty.curried ts t).MadeBy s k := by
  induction ts with
  | nil => exact ht
  | cons u ts ih =>
    intro v hv
    rcases Ty.mem_vars_func.mp hv with hv | hv
    · exact hts u (by simp) v hv
    · exact ih (fun u hu => hts u (by simp [hu])) v hv

theorem madeBy_vars {vs : List Var} (h : ∀ v ∈ vs, s.Made v k) :
    ∀ t ∈ vs.map Ty.var, t.MadeBy s k := by
  intro t ht
  obtain ⟨v, hv, rfl⟩ := List.mem_map.mp ht
  exact madeBy_var (h v hv)

theorem madeBy_literal (l : Literal) (k : Rank) : (literalType l).MadeBy s k := by
  cases l <;> exact fun v hv => absurd hv List.not_mem_nil

theorem madeBy_record {fields : List (String × Ty)} {ext : Option Var}
    (hfields : ∀ e ∈ fields, e.2.MadeBy s k) (hext : ∀ v, ext = some v → s.Made v k) :
    (Ty.record fields ext).MadeBy s k := by
  intro v hv
  rcases Ty.mem_vars_record.mp hv with ⟨e, he, hv⟩ | hv
  · exact hfields e he v hv
  · exact ⟨k, Nat.le_refl k, hext v hv⟩

/-- The property `B` of constraints at each rank is passed on by all that they are built of. -/
structure Carries (env : Environment) (s : Store) (B : Rank → Constraint → Prop) : Prop where
  all : ∀ {k : Rank} {cs : List Constraint}, (∀ c ∈ cs, B k c) → B k (.all cs)
  checkpoint : ∀ {k : Rank} {c : Constraint} (span : Span), B k c →
    B k ((Constraint.checkpoint span).and c)
  equal : ∀ {k : Rank} {expected actual : Ty} {span : Span}, expected.MadeBy s k →
    actual.MadeBy s k → B k (.equal expected actual span)
  instanceOf : ∀ {k : Rank} {name : String} {ty : Ty} {span : Span}, ty.MadeBy s k →
    B k (.instanceOf name ty span)
  /-- The boundary of the parameters of a function, which are compared with variables. -/
  parameters : ∀ {k : Rank} (ps : List Pattern) (vars : List Var) (g : Generator),
    g.rank = k + 1 → Walks s (patterns env ps (vars.map Ty.var)) g fun fs =>
      (∀ v ∈ vars, s.Made v k) → ∀ {c : Constraint}, B k c →
        B k ((Fragment.joinAll fs).toScheme.around c)
  /-- The boundary of a branch, whose pattern is compared with a variable. -/
  branch : ∀ {k : Rank} (p : Pattern) (v : Var) (span : Span) (g : Generator),
    g.rank = k + 1 → Walks s (pattern env p (.var v)) g fun f =>
      s.Made v k → ∀ {c : Constraint}, B k c → B k
        ({ f with constraint := (Constraint.checkpoint span).and f.constraint }.toScheme.around c)
  /-- The boundary of a group of definitions. -/
  group : ∀ {k : Rank} {fs : List Fragment} {c : Constraint},
    (∀ f ∈ fs, ∃ name v d, f = .binding name v d ∧ s.Made v (k + 1) ∧ B (k + 1) d) → B k c →
      B k ((groupScheme fs).around c)

section Carries

variable {B : Rank → Constraint → Prop}

theorem fieldTypes_walks (fs : List Field) (types : List (String × Ty)) :
    Walks s (fieldTypes fs types) g fun types' =>
      (∀ e ∈ types, e.2.MadeBy s g.rank) → ∀ e ∈ types', e.2.MadeBy s g.rank := by
  induction fs generalizing g types with
  | nil => exact .pure fun h => h
  | cons f fs ih =>
    obtain ⟨name, value⟩ := f
    rw [fieldTypes]
    split
    · exact ih types
    · refine .freshType fun v g1 hr1 => (ih _).mono fun types' hrest hv htypes => ?_
      rw [hr1] at hrest
      refine hrest fun e he => ?_
      rcases Assoc.mem_of_mem_insert he with rfl | he
      · exact madeBy_var hv
      · exact htypes e he

variable (hB : Carries env s B)

include hB

theorem function_walks (params : List Pattern) (span : Span) (expected : Ty)
    {body : Ty → Generate Constraint}
    (hbody : ∀ t g, Walks s (body t) g fun c => t.MadeBy s g.rank → B g.rank c) :
    Walks s (function env params span expected body) g fun c =>
      expected.MadeBy s g.rank → B g.rank c := by
  rw [function]
  split
  · exact hbody expected g
  · refine .bind (freshVars_walks params.length) fun vars g1 hr1 => ?_
    refine .freshType fun v g2 hr2 => ?_
    refine .bind (Walks.nested (hB.parameters params vars _ rfl)) fun fs g3 hr3 => ?_
    refine .bind (hbody (.var v) g3) fun c g4 _ => .pure ?_
    rw [hr3, hr2, hr1]
    intro hc hfs hv hvars ht
    refine hB.all (List.forall_mem_cons.mpr ⟨hfs hvars (hc (madeBy_var hv)), ?_⟩)
    simpa using hB.equal ht (madeBy_curried (madeBy_vars hvars) (madeBy_var hv))

theorem all_walks {cs : List Constraint} {c : Constraint} (hcs : ∀ d ∈ cs, B k d) (hc : B k c) :
    B k (.all (cs ++ [c])) :=
  hB.all (List.forall_mem_append.mpr ⟨hcs, by simpa using hc⟩)

set_option linter.unusedSectionVars false in
mutual

theorem expr_walks : ∀ (e : Expr) (expected : Ty) (g : Generator),
    Walks s (expr env e expected) g fun c => expected.MadeBy s g.rank → B g.rank c
  | ⟨id, span, form⟩, expected, g => by
    refine .bind (note_walks id expected) fun _ g1 hr1 => ?_
    rw [← hr1]
    exact (exprForm_walks span form expected g1).mono fun c hc _ => hc

theorem exprForm_walks (span : Span) : ∀ (e : ExprForm) (expected : Ty) (g : Generator),
    Walks s (exprForm env span e expected) g fun c => expected.MadeBy s g.rank → B g.rank c
  | .literal value, expected, g => .pure fun ht => hB.equal ht (madeBy_literal value _)
  | .var name, expected, g => .pure hB.instanceOf
  | .lambda params body, expected, g => function_walks hB params span expected (expr_walks body)
  | .apply func args, expected, g => by
    refine .bind (freshVars_walks args.length) fun vars g1 hr1 => ?_
    refine .bind (expr_walks func _ g1) fun c g2 hr2 => ?_
    refine .bind (exprs_walks args _ g2) fun cs g3 _ => .pure ?_
    rw [hr2, hr1]
    intro hcs hc hvars ht
    have hargs := madeBy_vars hvars
    exact hB.all (List.forall_mem_cons.mpr ⟨hc (madeBy_curried hargs ht), hcs hargs⟩)
  | .letIn defs body, expected, g => by
    refine .bind (Walks.nested (definitions_walks defs _)) fun fs g1 hr1 => ?_
    refine .bind (expr_walks body expected g1) fun c g2 _ => .pure ?_
    rw [hr1]
    exact fun hc hfs ht => hB.group hfs (hc ht)
  | .case scrutinee bs, expected, g => by
    refine .freshType fun v g1 hr1 => ?_
    refine .bind (expr_walks scrutinee (.var v) g1) fun c g2 hr2 => ?_
    refine .bind (branches_walks v expected bs g2) fun cs g3 _ => .pure ?_
    rw [hr2, hr1]
    exact fun hcs hc hv ht =>
      hB.all (List.forall_mem_cons.mpr ⟨hc (madeBy_var hv), hcs hv ht⟩)
  | .ite cond onTrue onFalse, expected, g => by
    refine .bind (expr_walks cond .bool g) fun c g1 hr1 => ?_
    refine .bind (expr_walks onTrue expected g1) fun d g2 hr2 => ?_
    refine .bind (expr_walks onFalse expected g2) fun e g3 _ => .pure ?_
    rw [hr2, hr1]
    intro he hd hc ht
    exact hB.all (by simpa using ⟨hc (madeBy_literal (.bool true) _), hd ht, he ht⟩)
  | .list items, expected, g => by
    refine .freshType fun v g1 hr1 => ?_
    refine .bind (exprs_walks items _ g1) fun cs g2 _ => .pure ?_
    rw [hr1]
    intro hcs hv ht
    have helem := madeBy_var hv
    refine all_walks hB (hcs fun t ht => ?_) (hB.equal ht fun v hv => ?_)
    · obtain ⟨_, _, rfl⟩ := List.mem_map.mp ht
      exact helem
    · exact helem v (by simpa [Ty.list] using hv)
  | .record fs, expected, g => by
    refine .bind (fields_walks fs g) fun r g1 _ => .pure ?_
    rintro ⟨htypes, hcs⟩ ht
    refine all_walks hB hcs (hB.equal ht (madeBy_record (fun e he => htypes e ?_) (by simp)))
    exact (Assoc.mem_of_mem_union he).resolve_right List.not_mem_nil
  | .access record field, expected, g => by
    refine .bind fresh_walks fun ext g1 hr1 => ?_
    refine (expr_walks record _ g1).mono fun c hc hext ht => ?_
    rw [hr1] at hc
    exact hc (madeBy_record (by simpa using ht) (by simpa using hext))
  | .update record fs, expected, g => by
    refine .bind fresh_walks fun ext g1 hr1 => ?_
    refine .bind (fieldTypes_walks fs []) fun types g2 hr2 => ?_
    refine .bind (expr_walks record _ g2) fun c g3 hr3 => ?_
    refine .bind (fieldValues_walks fs _ g3) fun cs g4 _ => .pure ?_
    rw [hr3, hr2, hr1]
    intro hcs hc htypes hext ht
    replace htypes := htypes (by simp)
    have hrow : (Ty.record types (some ext)).MadeBy s g.rank :=
      madeBy_record htypes (by simpa using hext)
    refine all_walks hB (List.forall_mem_cons.mpr ⟨hc hrow, hcs fun t ht => ?_⟩) (hB.equal ht hrow)
    obtain ⟨f, _, hf⟩ := List.mem_filterMap.mp ht
    exact htypes _ (Assoc.mem_of_get? hf)

theorem exprs_walks : ∀ (es : List Expr) (ts : List Ty) (g : Generator),
    Walks s (exprs env es ts) g fun cs => (∀ t ∈ ts, t.MadeBy s g.rank) → ∀ c ∈ cs, B g.rank c
  | [], _, _ => .pure fun _ => by simp
  | _ :: _, [], _ => .pure fun _ => by simp
  | e :: es, t :: ts, g => by
    refine .bind (expr_walks e t g) fun c g1 hr1 => ?_
    refine .bind (exprs_walks es ts g1) fun cs g2 _ => .pure ?_
    rw [hr1]
    exact fun hcs hc hts => List.forall_mem_cons.mpr
      ⟨hc (hts t (by simp)), hcs fun u hu => hts u (by simp [hu])⟩

theorem fieldValues_walks : ∀ (fs : List Field) (ts : List Ty) (g : Generator),
    Walks s (fieldValues env fs ts) g fun cs =>
      (∀ t ∈ ts, t.MadeBy s g.rank) → ∀ c ∈ cs, B g.rank c
  | [], _, _ => .pure fun _ => by simp
  | ⟨_, _⟩ :: _, [], _ => .pure fun _ => by simp
  | ⟨name, value⟩ :: fs, t :: ts, g => by
    refine .bind (expr_walks value t g) fun c g1 hr1 => ?_
    refine .bind (fieldValues_walks fs ts g1) fun cs g2 _ => .pure ?_
    rw [hr1]
    exact fun hcs hc hts => List.forall_mem_cons.mpr
      ⟨hc (hts t (by simp)), hcs fun u hu => hts u (by simp [hu])⟩

theorem fields_walks : ∀ (fs : List Field) (g : Generator),
    Walks s (fields env fs) g fun r =>
      (∀ e ∈ r.1, e.2.MadeBy s g.rank) ∧ ∀ c ∈ r.2, B g.rank c
  | [], g => .pure ⟨by simp, by simp⟩
  | ⟨name, value⟩ :: fs, g => by
    refine .freshType fun v g1 hr1 => ?_
    refine .bind (expr_walks value (.var v) g1) fun c g2 hr2 => ?_
    refine .bind (fields_walks fs g2) fun r g3 _ => .pure ?_
    rw [hr2, hr1]
    rintro ⟨htypes, hcs⟩ hc hv
    exact ⟨List.forall_mem_cons.mpr ⟨madeBy_var hv, htypes⟩,
      List.forall_mem_cons.mpr ⟨hc (madeBy_var hv), hcs⟩⟩

theorem branches_walks (v : Var) (expected : Ty) : ∀ (bs : List Branch) (g : Generator),
    Walks s (branches env (.var v) expected bs) g fun cs =>
      s.Made v g.rank → expected.MadeBy s g.rank → ∀ c ∈ cs, B g.rank c
  | [], g => .pure fun _ _ => by simp
  | ⟨p, body, span⟩ :: bs, g => by
    refine .bind (Walks.nested (hB.branch p v span _ rfl)) fun f g1 hr1 => ?_
    refine .bind (expr_walks body expected g1) fun c g2 hr2 => ?_
    refine .bind (branches_walks v expected bs g2) fun cs g3 _ => .pure ?_
    rw [hr2, hr1]
    exact fun hcs hc hf hv ht => List.forall_mem_cons.mpr
      ⟨hf hv (hB.checkpoint span (hc ht)), hcs hv ht⟩

theorem definitions_walks : ∀ (ds : List Def) (g : Generator),
    Walks s (definitions env ds) g fun fs => ∀ f ∈ fs,
      ∃ name v d, f = .binding name v d ∧ s.Made v g.rank ∧ B g.rank d
  | [], g => .pure (by simp)
  | ⟨name, params, body, span⟩ :: ds, g => by
    refine .bind fresh_walks fun v g1 hr1 => ?_
    refine .bind (function_walks hB params span (.var v) (expr_walks body)) fun c g2 hr2 => ?_
    refine .bind (definitions_walks ds g2) fun fs g3 _ => .pure ?_
    rw [hr2, hr1]
    exact fun hfs hc hv => List.forall_mem_cons.mpr
      ⟨⟨name, v, _, rfl, hv, hB.checkpoint span (hc (madeBy_var hv))⟩, hfs⟩

end

theorem groups_walks (gs : List Group) : Walks s (groups env gs) g fun schemes =>
    B g.rank (schemes.foldr Scheme.around .trivial) := by
  induction gs generalizing g with
  | nil => exact .pure (show B g.rank (.all []) from hB.all (by simp))
  | cons group gs ih =>
    refine .bind (Walks.nested (definitions_walks hB group.defs _)) fun fs g1 hr1 => ?_
    refine .bind ih fun schemes g2 _ => .pure ?_
    rw [hr1]
    exact fun hschemes hfs => hB.group hfs hschemes

theorem program_walks (p : Program) : Walks s (program env p) g (B g.rank) :=
  .bind (groups_walks hB p.groups) fun _ _ _ => .pure id

end Carries
end Generate

theorem Prepared.ofProgram_carries {program : Program} {env : Environment} {p : Prepared}
    {B : Rank → Constraint → Prop} (h : ofProgram program env = .ok p)
    (hB : Generate.Carries env p.store B) : B 0 p.constraint := by
  obtain ⟨_, _, s, c, g, _, _, hprogram, rfl⟩ := ofProgram_eq_ok h
  have hwalks := Generate.program_walks (g := { store := s }) hB program
  rw [Generate.Walks, hprogram] at hwalks
  exact hwalks.2.2 (.refl _)

end TypeSolver
