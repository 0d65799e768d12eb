import TypeSolver.Proofs.Generated

/-!
# TypeSolver.Proofs.Renaming

The walk over a program does not look at what its variables are called. Started with other numbers
for its next variables, it makes the same variables and demands the same of them, under their other
names. `Follows ρ f m m'` says so of two parts of the walk, where `f` renames results;
`expr_follows` is the walk over an expression, by cases on its form, and `definitions_follows` the
walk over a group.
-/

namespace TypeSolver

/-! ## Renamed types and constraints -/

namespace Ty

mutual

def renamed (ρ : Var → Var) : Ty → Ty
  | .var v => .var (ρ v)
  | .func arg ret => .func (arg.renamed ρ) (ret.renamed ρ)
  | .app name args => .app name (renamedList ρ args)
  | .record fields ext => .record (renamedFields ρ fields) (ext.map ρ)

def renamedList (ρ : Var → Var) : List Ty → List Ty
  | [] => []
  | t :: ts => t.renamed ρ :: renamedList ρ ts

def renamedFields (ρ : Var → Var) : List (String × Ty) → List (String × Ty)
  | [] => []
  | (name, t) :: fs => (name, t.renamed ρ) :: renamedFields ρ fs

end

variable {ρ : Var → Var}

theorem renamedList_eq (ts : List Ty) : renamedList ρ ts = ts.map (renamed ρ) := by
  induction ts with
  | nil => rfl
  | cons t ts ih => rw [renamedList, ih, List.map_cons]

theorem renamedFields_eq (fs : List (String × Ty)) :
    renamedFields ρ fs = Assoc.mapValues (renamed ρ) fs := by
  induction fs with
  | nil => rfl
  | cons f fs ih => rw [renamedFields, ih]; rfl

theorem renamed_app (name : String) (args : List Ty) :
    (Ty.app name args).renamed ρ = .app name (args.map (renamed ρ)) := by
  rw [renamed, renamedList_eq]

theorem renamed_record (fields : List (String × Ty)) (ext : Option Var) :
    (Ty.record fields ext).renamed ρ = .record (Assoc.mapValues (renamed ρ) fields) (ext.map ρ) := by
  rw [renamed, renamedFields_eq]

mutual

theorem vars_renamed : ∀ t : Ty, (t.renamed ρ).vars = t.vars.map ρ
  | .var _ => rfl
  | .func arg ret => by
    rw [renamed, vars, vars_renamed arg, vars_renamed ret, vars, List.map_append]
  | .app _ args => by rw [renamed, vars, varsList_renamed args, vars]
  | .record fields ext => by
    rw [renamed, vars, varsFields_renamed fields, vars, List.map_append]
    cases ext <;> rfl

theorem varsList_renamed : ∀ ts : List Ty, varsList (renamedList ρ ts) = (varsList ts).map ρ
  | [] => rfl
  | t :: ts => by
    rw [renamedList, varsList, vars_renamed t, varsList_renamed ts, varsList, List.map_append]

theorem varsFields_renamed : ∀ fs : List (String × Ty),
    varsFields (renamedFields ρ fs) = (varsFields fs).map ρ
  | [] => rfl
  | (name, t) :: fs => by
    rw [renamedFields, varsFields, vars_renamed t, varsFields_renamed fs, varsFields,
      List.map_append]

end

theorem mem_vars_renamed {t : Ty} {w : Var} : w ∈ (t.renamed ρ).vars ↔ ∃ v ∈ t.vars, ρ v = w := by
  rw [vars_renamed, List.mem_map]

theorem renamed_curried (ts : List Ty) (t : Ty) :
    (curried ts t).renamed ρ = curried (ts.map (renamed ρ)) (t.renamed ρ) := by
  induction ts with
  | nil => rfl
  | cons u ts ih =>
    show (Ty.func u (curried ts t)).renamed ρ = _
    rw [renamed, ih]
    rfl

theorem map_renamed_var (vs : List Var) :
    (vs.map Ty.var).map (renamed ρ) = (vs.map ρ).map Ty.var := by
  simp only [List.map_map]
  exact List.map_congr_left fun v _ => by simp only [Function.comp_apply, renamed]

end Ty

namespace Constraint

mutual

def renamed (ρ : Var → Var) : Constraint → Constraint
  | .trivial => .trivial
  | .checkpoint span => .checkpoint span
  | .equal expected actual span => .equal (expected.renamed ρ) (actual.renamed ρ) span
  | .conj items => .conj (renamedAll ρ items)
  | .letIn vars header defs body =>
    .letIn (vars.map ρ) (Assoc.mapValues (Ty.renamed ρ) header) (defs.renamed ρ) (body.renamed ρ)
  | .instanceOf name ty span => .instanceOf name (ty.renamed ρ) span

def renamedAll (ρ : Var → Var) : List Constraint → List Constraint
  | [] => []
  | c :: cs => c.renamed ρ :: renamedAll ρ cs

end

variable {ρ : Var → Var}

theorem renamedAll_eq (cs : List Constraint) : renamedAll ρ cs = cs.map (renamed ρ) := by
  induction cs with
  | nil => rfl
  | cons c cs ih => rw [renamedAll, ih, List.map_cons]

theorem renamed_and (c d : Constraint) : (c.and d).renamed ρ = (c.renamed ρ).and (d.renamed ρ) := by
  cases c <;> cases d <;> simp [and, renamed, renamedAll_eq]

theorem renamed_all (cs : List Constraint) : (all cs).renamed ρ = all (cs.map (renamed ρ)) := by
  suffices ∀ c : Constraint, (cs.foldl and c).renamed ρ = (cs.map (renamed ρ)).foldl and (c.renamed ρ)
    from this .trivial
  induction cs with
  | nil => exact fun _ => rfl
  | cons d cs ih => intro c; rw [List.foldl_cons, ih, renamed_and]; rfl

theorem renamed_recursive (header : Header) (c : Constraint) : (recursive header c).renamed ρ =
    recursive (Assoc.mapValues (Ty.renamed ρ) header) (c.renamed ρ) := by
  cases header with
  | nil => rfl
  | cons e header => rfl

end Constraint

namespace Fragment

variable {ρ : Var → Var}

def renamed (ρ : Var → Var) (f : Fragment) : Fragment where
  env := Assoc.mapValues (Ty.renamed ρ) f.env
  vars := f.vars.map ρ
  constraint := f.constraint.renamed ρ

theorem renamed_binding (name : String) (v : Var) (c : Constraint) :
    (binding name v c).renamed ρ = binding name (ρ v) (c.renamed ρ) := rfl

theorem renamed_join (f g : Fragment) : (f.join g).renamed ρ = (f.renamed ρ).join (g.renamed ρ) := by
  simp only [join, renamed, Assoc.mapValues_union, List.map_append, Constraint.renamed_and]

theorem renamed_joinAll (fs : List Fragment) :
    (joinAll fs).renamed ρ = joinAll (fs.map (renamed ρ)) := by
  suffices ∀ g : Fragment, (fs.foldl (fun acc f => f.join acc) g).renamed ρ =
      (fs.map (renamed ρ)).foldl (fun acc f => f.join acc) (g.renamed ρ) from this empty
  induction fs with
  | nil => exact fun _ => rfl
  | cons f fs ih => intro g; rw [List.foldl_cons, ih, renamed_join]; rfl

theorem renamed_around (f : Fragment) (c : Constraint) :
    (f.toScheme.around c).renamed ρ = (f.renamed ρ).toScheme.around (c.renamed ρ) := rfl

end Fragment

namespace Scheme

variable {ρ : Var → Var}

def renamed (ρ : Var → Var) (s : Scheme) : Scheme where
  quantifiers := s.quantifiers.map ρ
  candidates := s.candidates.map ρ
  qualifier := s.qualifier.renamed ρ
  header := Assoc.mapValues (Ty.renamed ρ) s.header

theorem renamed_around (s : Scheme) (c : Constraint) :
    (s.around c).renamed ρ = (s.renamed ρ).around (c.renamed ρ) := rfl

theorem renamed_groupScheme (fs : List Fragment) :
    (Generate.groupScheme fs).renamed ρ = Generate.groupScheme (fs.map (Fragment.renamed ρ)) := by
  simp only [Generate.groupScheme, ← Fragment.renamed_joinAll]
  simp only [Fragment.toScheme, renamed, Constraint.renamed_recursive, Fragment.renamed, List.map_nil]

end Scheme

/-! ## Renamed signatures -/

theorem Assoc.get?_mapValues {α β : Type} (f : α → β) (m : List (String × α)) (k : String) :
    Assoc.get? (Assoc.mapValues f m) k = (Assoc.get? m k).map f := by
  induction m with
  | nil => rfl
  | cons e m ih =>
    show Assoc.get? ((e.1, f e.2) :: Assoc.mapValues f m) k = _
    rw [Assoc.get?, ih, Assoc.get?]
    split <;> rfl

theorem Assoc.mapValues_insert {α β : Type} (f : α → β) (m : List (String × α)) (k : String)
    (a : α) : Assoc.mapValues f (Assoc.insert m k a) = Assoc.insert (Assoc.mapValues f m) k (f a) :=
  (Assoc.related_mapValues_iff.mp ((Assoc.related_mapValues_iff.mpr rfl).insert k rfl)).symm

namespace Signature

variable {ρ : Var → Var} {σ : List (String × Ty)}

theorem extend_renamed (fs : List (String × Ty)) (name : String) (t : Option Ty) :
    extend (Assoc.mapValues (Ty.renamed ρ) fs) name (t.map (Ty.renamed ρ)) =
      (extend fs name t).map (Ty.renamed ρ) := by
  cases t with
  | none => rfl
  | some t =>
    cases t with
    | var v => simp only [Option.map_some, Ty.renamed, extend, Except.map, Ty.renamedFields_eq]
    | func a r => rfl
    | app f args => rfl
    | record more rest =>
      simp only [Option.map_some, Ty.renamed_record, extend, Except.map, Assoc.mapValues_union]

mutual

theorem toTy_renamed : ∀ sig : Signature,
    sig.toTy (Assoc.mapValues (Ty.renamed ρ) σ) = (sig.toTy σ).map (Ty.renamed ρ)
  | .var name => by
    rw [toTy, toTy, Assoc.get?_mapValues]
    cases Assoc.get? σ name <;> rfl
  | .con name args => by
    rw [toTy, toTy, toTyList_renamed args]
    cases toTyList σ args with
    | error e => rfl
    | ok ts => simp only [Except.map, Ty.renamed_app]
  | .func arg ret => by
    rw [toTy, toTy, toTy_renamed arg, toTy_renamed ret]
    cases arg.toTy σ with
    | error e => rfl
    | ok a => cases ret.toTy σ <;> rfl
  | .record fields ext => by
    rw [toTy, toTy, toTyFields_renamed fields]
    cases toTyFields σ fields with
    | error e => rfl
    | ok fs =>
      cases ext with
      | none => simp only [Except.map, Ty.renamed_record, Option.map_none]
      | some name =>
        simp only [Except.map, Assoc.get?_mapValues]
        exact extend_renamed fs name _

theorem toTyList_renamed : ∀ ts : List Signature,
    toTyList (Assoc.mapValues (Ty.renamed ρ) σ) ts = (toTyList σ ts).map (List.map (Ty.renamed ρ))
  | [] => rfl
  | t :: ts => by
    rw [toTyList, toTyList, toTy_renamed t, toTyList_renamed ts]
    cases t.toTy σ with
    | error e => rfl
    | ok u => cases toTyList σ ts <;> rfl

theorem toTyFields_renamed : ∀ fs : List (String × Signature),
    toTyFields (Assoc.mapValues (Ty.renamed ρ) σ) fs =
      (toTyFields σ fs).map (Assoc.mapValues (Ty.renamed ρ))
  | [] => rfl
  | (name, t) :: fs => by
    rw [toTyFields, toTyFields, toTy_renamed t, toTyFields_renamed fs]
    cases t.toTy σ with
    | error e => rfl
    | ok u => cases toTyFields σ fs <;> rfl

end

theorem assignment_renamed (names : List String) (vars : List Var) :
    assignment names (vars.map ρ) = Assoc.mapValues (Ty.renamed ρ) (assignment names vars) := by
  rw [assignment, assignment, Assoc.mapValues, List.map_reverse, ← Ty.map_renamed_var,
    List.zip_map_right]
  rfl

end Signature

/-! ## The walk under other names -/

def Store.add (s : Store) (new : List Slot) : Store := { s with slots := s.slots ++ new.toArray }

namespace Store

theorem add_nil (s : Store) : s.add [] = s := by
  simp [add]

theorem add_add (s : Store) (a b : List Slot) : (s.add a).add b = s.add (a ++ b) := by
  simp [add, Array.append_assoc]

theorem add_size (s : Store) (new : List Slot) : (s.add new).size = s.size + new.length := by
  simp [add, size]

theorem fresh_snd (s : Store) (rank : Rank) (hint : Option String) :
    (s.fresh rank hint).2 = s.add [.root (.unbound rank hint)] := by
  simp [fresh, add]

end Store

namespace Generate

/-- Where the walk stands in `h`, it would stand in `g`, if its next variables were called as `ρ`
says. -/
structure Shifted (ρ : Var → Var) (g h : Generator) : Prop where
  rank : h.rank = g.rank
  next : ∀ k, ρ (g.store.size + k) = h.store.size + k

/-- If the part `m` of the walk succeeds, then so does `m'` from where it stands in `h`, with the
same new variables under their other names and with a result that `f` renames. -/
def Follows {α : Type} (ρ : Var → Var) (f : α → α) (m m' : Generate α) : Prop :=
  ∀ g h a g', Shifted ρ g h → m g = .ok a g' →
    ∃ h' new, m' h = .ok (f a) h' ∧ Shifted ρ g' h' ∧ g'.store = g.store.add new ∧
      h'.store = h.store.add new

variable {α β : Type} {ρ : Var → Var} {f : α → α} {f' : β → β} {m m' : Generate α}

namespace Follows

theorem pure {a b : α} (h : b = f a) : Follows ρ f (pure a) (pure b) := by
  intro g h' a' g' hs hrun
  obtain ⟨rfl, rfl⟩ := pure_eq_ok hrun
  exact ⟨h', [], by rw [h]; rfl, hs, (Store.add_nil _).symm, (Store.add_nil _).symm⟩

theorem bind {k k' : α → Generate β} (hm : Follows ρ f m m')
    (hk : ∀ a, Follows ρ f' (k a) (k' (f a))) : Follows ρ f' (m >>= k) (m' >>= k') := by
  intro g h b g'' hs hrun
  obtain ⟨a, g', ha, hb⟩ := bind_eq_ok hrun
  obtain ⟨h', new, ha', hs', hg', hh'⟩ := hm g h a g' hs ha
  obtain ⟨h'', new', hb', hs'', hg'', hh''⟩ := hk a g' h' b g'' hs' hb
  refine ⟨h'', new ++ new', ?_, hs'', ?_, ?_⟩
  · show EStateM.bind m' k' h = _
    rw [EStateM.bind, ha']
    exact hb'
  · rw [hg'', hg', Store.add_add]
  · rw [hh'', hh', Store.add_add]

theorem map {k k' : α → β} (hm : Follows ρ f m m') (hk : ∀ a, k' (f a) = f' (k a)) :
    Follows ρ f' (m >>= fun a => Pure.pure (k a)) (m' >>= fun a => Pure.pure (k' a)) :=
  hm.bind fun a => .pure (hk a)

theorem nested (hm : Follows ρ f m m') : Follows ρ f (nested m) (nested m') := by
  intro g h a g' hs hrun
  obtain ⟨g1, hm1, rfl⟩ := nested_eq_ok hrun
  obtain ⟨h1, new, hm1', hs1, hg, hh⟩ := hm { g with rank := g.rank + 1 }
    { h with rank := h.rank + 1 } a g1 ⟨by rw [hs.rank], hs.next⟩ hm1
  refine ⟨{ h1 with rank := h1.rank - 1 }, new, ?_, ⟨by rw [hs1.rank], hs1.next⟩, hg, hh⟩
  rw [Generate.nested, hm1']

end Follows

theorem fresh_follows : Follows ρ ρ fresh fresh := by
  rintro g h v g' hs ⟨⟩
  have hv : ρ g.store.size = h.store.size := by simpa using hs.next 0
  refine ⟨{ h with store := (h.store.fresh h.rank none).2 }, [.root (.unbound g.rank none)],
    by rw [hv]; rfl, ⟨hs.rank, fun k => ?_⟩, Store.fresh_snd .., by rw [Store.fresh_snd, hs.rank]⟩
  show ρ ((g.store.fresh g.rank none).2.size + k) = (h.store.fresh h.rank none).2.size + k
  rw [Store.fresh_size, Store.fresh_size, Nat.add_assoc, Nat.add_assoc, hs.next]

theorem freshType_follows : Follows ρ (Ty.renamed ρ) freshType freshType :=
  fresh_follows.map fun _ => rfl

theorem freshVars_follows (n : Nat) : Follows ρ (List.map ρ) (freshVars n) (freshVars n) := by
  induction n with
  | zero => exact .pure rfl
  | succ n ih => exact fresh_follows.bind fun v => ih.map fun vs => rfl

theorem note_follows (n : UInt32) (t : Ty) : Follows ρ id (note n t) (note n (t.renamed ρ)) := by
  rintro g h _ g' hs ⟨⟩
  exact ⟨_, [], rfl, ⟨hs.rank, hs.next⟩, (Store.add_nil _).symm, (Store.add_nil _).symm⟩

theorem freshNamed_shifted {s s' : Store} (rank : Rank) (names : List String)
    (hs : ∀ k, ρ (s.size + k) = s'.size + k) :
    ∃ new, (s.freshNamed rank names).2 = s.add new ∧ (s'.freshNamed rank names).2 = s'.add new ∧
      (s'.freshNamed rank names).1 = (s.freshNamed rank names).1.map ρ := by
  induction names generalizing s s' with
  | nil => exact ⟨[], (Store.add_nil s).symm, (Store.add_nil s').symm, rfl⟩
  | cons name names ih =>
    have hnext : ∀ k, ρ ((s.fresh rank (some name)).2.size + k) =
        (s'.fresh rank (some name)).2.size + k := fun k => by
      rw [Store.fresh_size, Store.fresh_size, Nat.add_assoc, Nat.add_assoc, hs]
    obtain ⟨new, h, h', hvars⟩ := ih hnext
    have hhead : ρ s.size = s'.size := by simpa using hs 0
    refine ⟨.root (.unbound rank (some name)) :: new, ?_, ?_, ?_⟩
    · show ((s.fresh rank (some name)).2.freshNamed rank names).2 = _
      rw [h, Store.fresh_snd, Store.add_add]
      rfl
    · show ((s'.fresh rank (some name)).2.freshNamed rank names).2 = _
      rw [h', Store.fresh_snd, Store.add_add]
      rfl
    · show s'.size :: ((s'.fresh rank (some name)).2.freshNamed rank names).1 = _
      rw [hvars, ← hhead]
      rfl

theorem constructor_follows (env : Environment) (name : String) (span : Span) :
    Follows ρ (fun r => (r.1.map (Ty.renamed ρ), r.2.renamed ρ)) (constructor env name span)
      (constructor env name span) := by
  intro g h r g' hs hrun
  obtain ⟨c, args, hget, hargs, rfl, rfl⟩ := constructor_eq_ok.mp hrun
  obtain ⟨new, hg, hh, hvars⟩ := freshNamed_shifted g.rank c.params hs.next
  refine ⟨{ h with store := (h.store.freshNamed g.rank c.params).2 }, new,
    constructor_eq_ok.mpr ⟨c, args.map (Ty.renamed ρ), hget, ?_⟩, ⟨hs.rank, fun k => ?_⟩, hg, hh⟩
  · simp only [hs.rank, hvars, Signature.assignment_renamed, Signature.toTyList_renamed, hargs,
      Except.map, Ty.renamed_app, List.map_filterMap, Assoc.get?_mapValues, and_self]
  · simp only [hg, hh, Store.add_size, Nat.add_assoc, hs.next]

theorem fieldBindings_follows (names : List String) :
    Follows ρ (List.map (Fragment.renamed ρ)) (fieldBindings names) (fieldBindings names) := by
  induction names with
  | nil => exact .pure rfl
  | cons name names ih => exact fresh_follows.bind fun v => ih.map fun fs => rfl

variable {env : Environment}

theorem literalType_renamed (l : Literal) : (literalType l).renamed ρ = literalType l := by
  cases l <;> rfl

mutual

theorem pattern_follows : ∀ (p : Pattern) (t : Ty),
    Follows ρ (Fragment.renamed ρ) (pattern env p t) (pattern env p (t.renamed ρ))
  | ⟨span, form⟩, t => by exact patternForm_follows span form t

theorem patternForm_follows (span : Span) : ∀ (p : PatternForm) (t : Ty),
    Follows ρ (Fragment.renamed ρ) (patternForm env span p t) (patternForm env span p (t.renamed ρ))
  | .wildcard, t => by exact .pure rfl
  | .var name, t => by exact fresh_follows.map fun _ => rfl
  | .literal value, t => by
    refine .pure ?_
    simp only [Fragment.renamed, Constraint.renamed, literalType_renamed]
    rfl
  | .ctor name args, t => by
    refine (constructor_follows env name span).bind fun r => (freshVars_follows args.length).bind
      fun vars => ?_
    rw [← Ty.map_renamed_var]
    refine (patterns_follows args (vars.map Ty.var)).map fun fs => ?_
    rw [Fragment.renamed_join, Fragment.renamed_joinAll]
    simp only [Fragment.renamed, Constraint.renamed_all, List.map_cons, List.map_nil,
      Constraint.renamed, Ty.renamed_curried]
    rfl
  | .record fields, t => by
    refine fresh_follows.bind fun ext => (fieldBindings_follows fields).map fun fs => ?_
    rw [Fragment.renamed_join, Fragment.renamed_joinAll, ← Fragment.renamed_joinAll]
    simp only [Fragment.renamed, Constraint.renamed, Ty.renamed_record]
    rfl
  | .named inner name, t => by
    refine fresh_follows.bind fun v => (pattern_follows inner t).map fun f => ?_
    rw [Fragment.renamed_join, Fragment.renamed_binding]
    rfl

theorem patterns_follows : ∀ (ps : List Pattern) (ts : List Ty),
    Follows ρ (List.map (Fragment.renamed ρ)) (patterns env ps ts)
      (patterns env ps (ts.map (Ty.renamed ρ)))
  | [], _ => .pure rfl
  | _ :: _, [] => .pure rfl
  | p :: ps, t :: ts => by
    exact (pattern_follows p t).bind fun f => (patterns_follows ps ts).map fun fs => rfl

end

theorem function_follows {params : List Pattern} {span : Span} {t : Ty}
    {body : Ty → Generate Constraint}
    (hbody : ∀ t, Follows ρ (Constraint.renamed ρ) (body t) (body (t.renamed ρ))) :
    Follows ρ (Constraint.renamed ρ) (function env params span t body)
      (function env params span (t.renamed ρ) body) := by
  rw [function, function]
  split
  · exact hbody t
  · refine (freshVars_follows params.length).bind fun vars => freshType_follows.bind fun ret => ?_
    rw [← Ty.map_renamed_var]
    refine (patterns_follows params (vars.map Ty.var)).nested.bind fun fs =>
      (hbody ret).map fun c => ?_
    rw [Constraint.renamed_all, ← Fragment.renamed_joinAll]
    simp only [List.map_cons, List.map_nil, Fragment.renamed_around, Constraint.renamed,
      Ty.renamed_curried]

theorem fieldTypes_follows (fs : List Field) (types : List (String × Ty)) :
    Follows ρ (Assoc.mapValues (Ty.renamed ρ)) (fieldTypes fs types)
      (fieldTypes fs (Assoc.mapValues (Ty.renamed ρ) types)) := by
  induction fs generalizing types with
  | nil => exact .pure rfl
  | cons f fs ih =>
    obtain ⟨name, value⟩ := f
    have hcontains : Assoc.contains (Assoc.mapValues (Ty.renamed ρ) types) name =
        Assoc.contains types name := by
      rw [Assoc.contains, Assoc.get?_mapValues, Option.isSome_map]
      rfl
    rw [fieldTypes, fieldTypes, hcontains]
    split
    · exact ih types
    · refine freshType_follows.bind fun t => ?_
      rw [← Assoc.mapValues_insert]
      exact ih _

mutual

theorem expr_follows : ∀ (e : Expr) (t : Ty),
    Follows ρ (Constraint.renamed ρ) (expr env e t) (expr env e (t.renamed ρ))
  | ⟨n, span, form⟩, t => by
    exact (note_follows n t).bind fun _ => exprForm_follows span form t

theorem exprForm_follows (span : Span) : ∀ (e : ExprForm) (t : Ty),
    Follows ρ (Constraint.renamed ρ) (exprForm env span e t) (exprForm env span e (t.renamed ρ))
  | .literal value, t => by
    exact .pure (by rw [Constraint.renamed, literalType_renamed])
  | .var name, t => by exact .pure rfl
  | .lambda params body, t => by
    exact function_follows fun t => expr_follows body t
  | .apply func args, t => by
    refine (freshVars_follows args.length).bind fun vars => ?_
    dsimp only
    rw [← Ty.map_renamed_var, ← Ty.renamed_curried]
    exact (expr_follows func _).bind fun c => (exprs_follows args _).map fun cs =>
      (Constraint.renamed_all (c :: cs)).symm
  | .letIn defs body, t => by
    refine (definitions_follows defs).nested.bind fun fs => (expr_follows body t).map fun c => ?_
    rw [Scheme.renamed_around, Scheme.renamed_groupScheme]
  | .case scrutinee bs, t => by
    exact freshType_follows.bind fun subject => (expr_follows scrutinee subject).bind fun c =>
      (branches_follows subject t bs).map fun cs => (Constraint.renamed_all (c :: cs)).symm
  | .ite cond onTrue onFalse, t => by
    exact (expr_follows cond .bool).bind fun c => (expr_follows onTrue t).bind fun d =>
      (expr_follows onFalse t).map fun e => (Constraint.renamed_all [c, d, e]).symm
  | .list items, t => by
    refine freshType_follows.bind fun elem => ?_
    have helem : items.map (fun _ => elem.renamed ρ) = (items.map fun _ => elem).map (Ty.renamed ρ) := by
      simp only [List.map_map, Function.comp_def]
    rw [helem]
    refine (exprs_follows items _).map fun cs => ?_
    rw [Constraint.renamed_all, List.map_append]
    simp only [List.map_cons, List.map_nil, Constraint.renamed, Ty.list, Ty.renamed_app]
  | .record fs, t => by
    refine (fields_follows fs).map fun r => ?_
    rw [Constraint.renamed_all, List.map_append]
    simp only [List.map_cons, List.map_nil, Constraint.renamed, Ty.renamed_record, Assoc.ofList,
      Assoc.mapValues_union, Option.map_none]
    rfl
  | .access record field, t => by
    refine fresh_follows.bind fun ext => ?_
    have h := expr_follows record (.record [(field, t)] (some ext))
    rwa [Ty.renamed_record] at h
  | .update record fs, t => by
    refine fresh_follows.bind fun ext => (fieldTypes_follows fs []).bind fun types => ?_
    have h := expr_follows record (.record types (some ext))
    rw [Ty.renamed_record] at h
    refine h.bind fun c => ?_
    have hvalues : (fs.filterMap fun f => Assoc.get? (Assoc.mapValues (Ty.renamed ρ) types) f.name) =
        (fs.filterMap fun f => Assoc.get? types f.name).map (Ty.renamed ρ) := by
      simp only [List.map_filterMap, Assoc.get?_mapValues]
    rw [hvalues]
    refine (fieldValues_follows fs _).map fun cs => ?_
    rw [Constraint.renamed_all, List.map_append]
    simp only [List.map_cons, List.map_nil, Constraint.renamed, Ty.renamed_record]
    rfl

theorem exprs_follows : ∀ (es : List Expr) (ts : List Ty),
    Follows ρ (List.map (Constraint.renamed ρ)) (exprs env es ts)
      (exprs env es (ts.map (Ty.renamed ρ)))
  | [], _ => .pure rfl
  | _ :: _, [] => .pure rfl
  | e :: es, t :: ts => by
    exact (expr_follows e t).bind fun c => (exprs_follows es ts).map fun cs => rfl

theorem fieldValues_follows : ∀ (fs : List Field) (ts : List Ty),
    Follows ρ (List.map (Constraint.renamed ρ)) (fieldValues env fs ts)
      (fieldValues env fs (ts.map (Ty.renamed ρ)))
  | [], _ => .pure rfl
  | ⟨_, _⟩ :: _, [] => .pure rfl
  | ⟨name, value⟩ :: fs, t :: ts => by
    exact (expr_follows value t).bind fun c => (fieldValues_follows fs ts).map fun cs => rfl

theorem fields_follows : ∀ fs : List Field,
    Follows ρ (fun r => (Assoc.mapValues (Ty.renamed ρ) r.1, r.2.map (Constraint.renamed ρ)))
      (fields env fs) (fields env fs)
  | [] => .pure rfl
  | ⟨name, value⟩ :: fs => by
    exact freshType_follows.bind fun t => (expr_follows value t).bind fun c =>
      (fields_follows fs).map fun r => rfl

theorem branches_follows (subject expected : Ty) : ∀ bs : List Branch,
    Follows ρ (List.map (Constraint.renamed ρ)) (branches env subject expected bs)
      (branches env (subject.renamed ρ) (expected.renamed ρ) bs)
  | [] => .pure rfl
  | ⟨p, body, span⟩ :: bs => by
    refine (pattern_follows p subject).nested.bind fun f => (expr_follows body expected).bind
      fun c => (branches_follows subject expected bs).map fun cs => ?_
    simp only [List.map_cons, Fragment.renamed_around, Fragment.renamed, Constraint.renamed_and]
    rfl

theorem definitions_follows : ∀ ds : List Def,
    Follows ρ (List.map (Fragment.renamed ρ)) (definitions env ds) (definitions env ds)
  | [] => .pure rfl
  | ⟨name, params, body, span⟩ :: ds => by
    refine fresh_follows.bind fun v =>
      (function_follows (t := .var v) fun t => expr_follows body t).bind fun c =>
        (definitions_follows ds).map fun fs => ?_
    rw [List.map_cons, Fragment.renamed_binding, Constraint.renamed_and]
    rfl

end

end Generate

end TypeSolver
