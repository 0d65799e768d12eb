import Mathlib
import TypeSolver.Proofs.Generalization
import TypeSolver.Proofs.Walks

/-!
# TypeSolver.Proofs.Levels

The walk over a program and the solver each count how many boundaries surround them. A constraint
is `Leveled` at the rank at which the solver takes it up when its demands are about variables made
at this rank or further outside, and each boundary in it is over variables made one rank deeper.
-/

open Relation (ReflTransGen)

namespace TypeSolver

namespace Constraint

/-- A constraint that the solver takes up at rank `k`. Where it is what a group defines, `around`
is the header of this group, which may be bound around the definitions once more. -/
inductive Leveled (s : Store) : (around : Header) → Rank → Constraint → Prop where
  | trivial {around : Header} {k : Rank} : Leveled s around k .trivial
  | checkpoint {around : Header} {k : Rank} {span : Span} : Leveled s around k (.checkpoint span)
  | equal {around : Header} {k : Rank} {expected actual : Ty} {span : Span} :
      expected.MadeBy s k → actual.MadeBy s k → Leveled s around k (.equal expected actual span)
  | instanceOf {around : Header} {k : Rank} {name : String} {ty : Ty} {span : Span} :
      ty.MadeBy s k → Leveled s around k (.instanceOf name ty span)
  | conj {around : Header} {k : Rank} {items : List Constraint} :
      (∀ c ∈ items, Leveled s [] k c) → Leveled s around k (.conj items)
  | letIn {around : Header} {k : Rank} {vars : List Var} {header : Header}
      {defs body : Constraint} : (∀ v ∈ vars, s.Made v (k + 1)) →
      (∀ e ∈ header, ∃ v ∈ vars, e.2 = .var v) → Leveled s header (k + 1) defs →
      Leveled s [] k body → Leveled s around k (.letIn vars header defs body)
  | recursive {around : Header} {k : Rank} {defs : Constraint} : Leveled s [] k defs →
      Leveled s around k (.letIn [] around .trivial defs)

variable {s : Store} {around : Header} {k : Rank} {c d : Constraint}

theorem leveled_iff_parts : c.Leveled s [] k ↔ ∀ p ∈ c.parts, p.Leveled s [] k := by
  cases c with
  | trivial => exact ⟨fun _ _ hp => absurd hp List.not_mem_nil, fun _ => .trivial⟩
  | conj items => exact ⟨fun h => by cases h with | conj h => exact h, .conj⟩
  | _ => simp [parts]

theorem leveled_and : (c.and d).Leveled s [] k ↔ c.Leveled s [] k ∧ d.Leveled s [] k :=
  and_iff_of_parts (B := (Leveled s [] k ·)) leveled_iff_parts

theorem leveled_all {cs : List Constraint} (h : ∀ c ∈ cs, c.Leveled s [] k) :
    (all cs).Leveled s [] k := all_of_parts leveled_iff_parts h

theorem Leveled.inside (h : c.Leveled s [] k) : c.Leveled s around k := by
  cases h with
  | trivial => exact .trivial
  | checkpoint => exact .checkpoint
  | equal he ha => exact .equal he ha
  | instanceOf ht => exact .instanceOf ht
  | conj hs => exact .conj hs
  | letIn hvars hheader hdefs hbody => exact .letIn hvars hheader hdefs hbody
  | recursive hdefs => exact .letIn (by simp) (by simp) .trivial hdefs

end Constraint

/-- What a pattern or a definition contributes to a boundary whose definitions are solved at rank
`k`. -/
structure Fragment.Leveled (s : Store) (k : Rank) (f : Fragment) : Prop where
  vars : ∀ v ∈ f.vars, s.Made v k
  env : ∀ e ∈ f.env, ∃ v ∈ f.vars, e.2 = .var v
  constraint : f.constraint.Leveled s [] k

namespace Fragment

variable {s : Store} {k : Rank} {f g : Fragment}

theorem Leveled.empty : Fragment.empty.Leveled s k :=
  ⟨by simp [Fragment.empty], by simp [Fragment.empty], .trivial⟩

variable {c : Constraint}

theorem Leveled.binding {name : String} {v : Var} (hv : s.Made v k) (hc : c.Leveled s [] k) :
    (Fragment.binding name v c).Leveled s k := by
  refine ⟨fun w hw => ?_, fun e he => ?_, hc⟩
  · obtain rfl := List.mem_singleton.mp hw
    exact hv
  · obtain rfl := List.mem_singleton.mp he
    exact ⟨v, by simp [Fragment.binding], rfl⟩

theorem Leveled.join (hf : f.Leveled s k) (hg : g.Leveled s k) : (f.join g).Leveled s k := by
  refine ⟨fun v hv => ?_, fun e he => ?_, Constraint.leveled_and.mpr ⟨hf.constraint, hg.constraint⟩⟩
  · rcases List.mem_append.mp hv with hv | hv
    · exact hf.vars v hv
    · exact hg.vars v hv
  · rcases Assoc.mem_of_mem_union he with he | he
    · obtain ⟨v, hv, heq⟩ := hf.env e he
      exact ⟨v, List.mem_append.mpr (.inl hv), heq⟩
    · obtain ⟨v, hv, heq⟩ := hg.env e he
      exact ⟨v, List.mem_append.mpr (.inr hv), heq⟩

theorem leveled_joinAll {fs : List Fragment} (h : ∀ f ∈ fs, f.Leveled s k) :
    (joinAll fs).Leveled s k :=
  joinAll_induction .empty (fun _ _ hf hacc => hf.join hacc) h

theorem Leveled.around (hf : f.Leveled s (k + 1)) (hc : c.Leveled s [] k) :
    (f.toScheme.around c).Leveled s [] k :=
  .letIn hf.vars hf.env hf.constraint.inside hc

end Fragment

theorem Generate.leveled_group {s : Store} {k : Rank} {fs : List Fragment} {c : Constraint}
    (hfs : ∀ f ∈ fs, f.Leveled s (k + 1)) (hc : c.Leveled s [] k) :
    ((groupScheme fs).around c).Leveled s [] k := by
  obtain ⟨hvars, henv, hdefs⟩ := Fragment.leveled_joinAll hfs
  refine .letIn hvars henv ?_ hc
  show (Constraint.recursive _ _).Leveled s _ (k + 1)
  rw [Constraint.recursive]
  split
  · exact hdefs.inside
  · exact .recursive hdefs

namespace Generate

variable {s : Store} {g : Generator} {env : Environment}

theorem fieldBindings_walks (names : List String) :
    Walks s (fieldBindings names) g fun fs => ∀ f ∈ fs, f.Leveled s g.rank := by
  induction names generalizing g with
  | nil => exact .pure (by simp)
  | cons name names ih =>
    refine .bind fresh_walks fun v g1 hr1 => .bind ih fun fs g2 _ => .pure fun hfs hv f hf => ?_
    rcases List.mem_cons.mp hf with rfl | hf
    · exact .binding hv .trivial
    · rw [← hr1]; exact hfs f hf

mutual

theorem pattern_walks : ∀ (p : Pattern) (expected : Ty) (g : Generator),
    Walks s (pattern env p expected) g fun f => expected.MadeBy s g.rank → f.Leveled s g.rank
  | ⟨span, form⟩, expected, g => by
    exact patternForm_walks span form expected g

theorem patternForm_walks (span : Span) : ∀ (p : PatternForm) (expected : Ty) (g : Generator),
    Walks s (patternForm env span p expected) g fun f =>
      expected.MadeBy s g.rank → f.Leveled s g.rank
  | .wildcard, expected, g => by
    exact .pure fun _ => .empty
  | .var name, expected, g => by
    exact .bind fresh_walks fun v g1 _ => .pure fun hv ht =>
      .binding hv (.equal ht (madeBy_var hv))
  | .literal value, expected, g => by
    exact .pure fun ht => ⟨by simp, by simp, .equal ht (madeBy_literal value _)⟩
  | .ctor name args, expected, g => by
    refine .bind (constructor_walks name span) fun r g1 hr1 => ?_
    refine .bind (freshVars_walks args.length) fun vars g2 hr2 => ?_
    refine .bind (patterns_walks args (vars.map Ty.var) g2) fun inner g3 _ => .pure ?_
    rw [hr2, hr1]
    rintro hinner hvars ⟨hresult, hbuilds⟩ ht
    have hargs := madeBy_vars hvars
    have hparams : ∀ t ∈ r.1, t.MadeBy s g.rank := fun t ht v hv =>
      hresult v (hbuilds.args t ht v hv)
    refine Fragment.Leveled.join ⟨hvars, by simp, Constraint.leveled_all fun c hc => ?_⟩
      (Fragment.leveled_joinAll (hinner hargs))
    simp only [List.mem_cons, List.not_mem_nil, or_false] at hc
    rcases hc with rfl | rfl
    · exact .equal ht hresult
    · exact .equal (madeBy_curried hargs hresult) (madeBy_curried hparams hresult)
  | .record fields, expected, g => by
    refine .bind fresh_walks fun ext g1 hr1 => ?_
    refine .bind (fieldBindings_walks fields) fun fs g2 _ => .pure ?_
    rw [hr1]
    intro hfs hext ht
    have hall := Fragment.leveled_joinAll hfs
    have hrow : (Ty.record (Fragment.joinAll fs).env (some ext)).MadeBy s g.rank :=
      madeBy_record
        (fun e he => by
          obtain ⟨v, hv, heq⟩ := hall.env e he
          rw [heq]
          exact madeBy_var (hall.vars v hv))
        fun v hv => by cases hv; exact hext
    refine Fragment.Leveled.join ⟨fun v hv => ?_, by simp, .equal ht hrow⟩ hall
    rw [List.mem_singleton.mp hv]
    exact hext
  | .named inner name, expected, g => by
    refine .bind fresh_walks fun v g1 hr1 => ?_
    refine .bind (pattern_walks inner expected g1) fun f g2 _ => .pure ?_
    rw [hr1]
    exact fun hf hv ht => Fragment.Leveled.join (.binding hv (.equal ht (madeBy_var hv))) (hf ht)

theorem patterns_walks : ∀ (ps : List Pattern) (ts : List Ty) (g : Generator),
    Walks s (patterns env ps ts) g fun fs =>
      (∀ t ∈ ts, t.MadeBy s g.rank) → ∀ f ∈ fs, f.Leveled s g.rank
  | [], ts, g => by
    rw [patterns]
    · exact .pure fun _ => by simp
    · simp
  | p :: ps, [], g => by
    rw [patterns]
    · exact .pure fun _ => by simp
    · simp
  | p :: ps, t :: ts, g => by
    refine .bind (pattern_walks p t g) fun f g1 hr1 => ?_
    refine .bind (patterns_walks ps ts g1) fun fs g2 _ => .pure ?_
    rw [hr1]
    intro hfs hf hts f' hf'
    rcases List.mem_cons.mp hf' with rfl | hf'
    · exact hf (hts t (by simp))
    · exact hfs (fun u hu => hts u (by simp [hu])) f' hf'

end

theorem leveled_carries : Carries env s fun k c => c.Leveled s [] k where
  all := Constraint.leveled_all
  checkpoint _ hc := Constraint.leveled_and.mpr ⟨.checkpoint, hc⟩
  equal := .equal
  instanceOf := .instanceOf
  parameters ps vars g hr := (patterns_walks ps _ g).mono fun fs hfs hvars _ hc => by
    rw [hr] at hfs
    exact (Fragment.leveled_joinAll (hfs fun t ht => (madeBy_vars hvars t ht).succ)).around hc
  branch p v span g hr := (pattern_walks p (.var v) g).mono fun f hf hv _ hc => by
    rw [hr] at hf
    obtain ⟨hvars, henv, hc'⟩ := hf (madeBy_var hv).succ
    exact Fragment.Leveled.around ⟨hvars, henv, Constraint.leveled_and.mpr ⟨.checkpoint, hc'⟩⟩ hc
  group hfs hc := leveled_group (fun f hf => by
    obtain ⟨name, v, d, rfl, hv, hd⟩ := hfs f hf
    exact .binding hv hd) hc

end Generate

/-- The header of the group whose boundary is left next. -/
def nextHeader : List Task → Header
  | .leave _ _ _ header _ _ _ :: _ => header
  | _ => []

/-- The work that is left when the solver is at rank `k` is leveled. -/
def LeveledWork (s : Store) : Rank → List Task → Prop
  | _, [] => True
  | k, .solve _ c :: ws => c.Leveled s (nextHeader ws) k ∧ LeveledWork s k ws
  | k, .leave _ outer _ _ _ body _ :: ws =>
    k = outer + 1 ∧ body.Leveled s [] outer ∧ LeveledWork s outer ws
  | k, .restore _ :: ws => LeveledWork s k ws

variable {ctx : Context} {items : List Constraint}

theorem leveledWork_items {s : Store} {k : Rank} {ws : List Task}
    (hitems : ∀ c ∈ items, c.Leveled s [] k) (hws : LeveledWork s k ws) :
    LeveledWork s k (items.map (.solve ctx) ++ ws) := by
  induction items with
  | nil => exact hws
  | cons c cs ih =>
    exact ⟨(hitems c (by simp)).inside, ih fun d hd => hitems d (by simp [hd])⟩

namespace Moment

variable {fuel : Nat} {m m' : Moment} {s : Store}

theorem Step.leveledWork (h : Step fuel m m') (hm : LeveledWork s m.state.rank m.work) :
    LeveledWork s m'.state.rank m'.work := by
  cases h with
  | trivial => exact hm.2
  | checkpoint => exact hm.2
  | equal hrun => rw [Solver.rank_of_equate hrun]; exact hm.2
  | instanceOf hrun => rw [Solver.rank_of_equateInstance hrun]; exact hm.2
  | conj =>
    obtain ⟨hc, hws⟩ := hm
    cases hc with
    | conj hitems => exact leveledWork_items hitems hws
  | enter =>
    obtain ⟨hc, hws⟩ := hm
    cases hc with
    | letIn _ _ hdefs hbody => exact ⟨hdefs, rfl, hbody, hws⟩
    | recursive hdefs => exact ⟨.trivial, rfl, hdefs, hws⟩
  | leave =>
    obtain ⟨_, hbody, hws⟩ := hm
    exact ⟨hbody, hws⟩
  | restore => exact hm

theorem Steps.leveledWork (h : Steps fuel m m') (hm : LeveledWork s m.state.rank m.work) :
    LeveledWork s m'.state.rank m'.work := by
  induction h with
  | refl => exact hm
  | tail _ hstep ih => exact hstep.leveledWork ih

end Moment

/-- The walk over a program ends at the rank at which it began, also when it fails. It makes no
change to a variable that it made. The constraint that it returns is leveled, and whatever the
solver takes up when it starts to solve this constraint at the rank of the walk is leveled at the
rank that the solver has at that moment. -/
theorem Generate.program_leveled (env : Environment) (p : Program) (g : Generator) :
    (∀ c g', program env p g = .ok c g' →
      g'.rank = g.rank ∧ g.store.Continues g'.store ∧ c.Leveled g'.store [] g.rank ∧
        ∀ (fuel : Nat) (ctx ctx' : Context) (st : Solver) (made : Var → Rank) (m : Moment)
          (d : Constraint) (ws : List Task), st.rank = g.rank →
          Moment.Steps fuel ⟨[.solve ctx c], st, made⟩ m → m.work = .solve ctx' d :: ws →
          d.Leveled g'.store (nextHeader ws) m.state.rank) ∧
    ∀ e g', program env p g = .error e g' → g'.rank = g.rank := by
  have hwalks : ∀ s, Walks s (program env p) g (·.Leveled s [] g.rank) := fun s =>
    program_walks leveled_carries p
  refine ⟨fun c g' hok => ?_, fun e g' herr => ?_⟩
  · have hend := hwalks g'.store
    rw [Walks, hok] at hend
    obtain ⟨hrank, hcont, hc⟩ := hend
    replace hc := hc (.refl _)
    refine ⟨hrank, hcont, hc, fun fuel ctx ctx' st made m d ws hst hsteps hwork => ?_⟩
    have hstart : LeveledWork g'.store st.rank [.solve ctx c] := ⟨by rw [hst]; exact hc, .intro⟩
    have hm := hsteps.leveledWork hstart
    rw [hwork] at hm
    exact hm.1
  · have hend := hwalks g.store
    rw [Walks, herr] at hend
    exact hend

/-- The pattern of the parameter of the identity is compared with the type of the parameter inside
two boundaries, with variables that were made at the ranks 1 and 2. -/
theorem Generate.program_leveled_identity : ∃ m ctx ws,
    Moment.Steps 20 (Moment.identityPrepared.start {}) m ∧
    m.work = .solve ctx (.equal (.var 1) (.var 3) {}) :: ws ∧ m.state.rank = 2 ∧
    Constraint.Leveled Moment.identityPrepared.store (nextHeader ws) 2
      (.equal (.var 1) (.var 3) {}) := by
  have hrun : program {} Moment.identity { store := {} } = .ok Moment.identityPrepared.constraint
      { store := Moment.identityPrepared.store, nodeTypes := Moment.identityPrepared.nodeTypes } := by
    cbv
  obtain ⟨_, _, _, hsolver⟩ := (program_leveled {} Moment.identity { store := {} }).1 _ _ hrun
  obtain ⟨m, ctx, ws, hsteps, hwork, hrank⟩ : ∃ m ctx ws,
      Moment.Steps 20 (Moment.identityPrepared.start {}) m ∧
      m.work = .solve ctx (.equal (.var 1) (.var 3) {}) :: ws ∧ m.state.rank = 2 :=
    ⟨_, _, _, .head .enter (.head .enter (.head .trivial (.head .leave (.head .conj
      (.head .checkpoint (.single .enter)))))), rfl, rfl⟩
  exact ⟨m, ctx, ws, hsteps, hwork, hrank, hrank ▸ hsolver 20 _ _ _ _ _ _ _ rfl hsteps hwork⟩

end TypeSolver
