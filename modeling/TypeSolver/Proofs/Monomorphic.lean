import Mathlib
import TypeSolver.Proofs.Finished
import TypeSolver.Proofs.Names
import TypeSolver.Proofs.Revealed
import TypeSolver.Proofs.Tails

/-!
# TypeSolver.Proofs.Monomorphic

Only groups of definitions are polymorphic. The variables of a pattern are made one rank inside the
boundary that the pattern is in, and become those of its surroundings only when its equations are
solved. At each moment inside such a boundary, the variables that are known lie within the rank
around it, and nothing was said about the others (`Moment.Anchored`). When the boundary is left, all
variables of its names are known, and none of them can be generalized (`Anchored.exists_group`).

For this, constructors must show their parameters, the environment must keep places apart, and
unification must not leave a variable alone that it should have compared (`Moment.Regular`). Without
records and aliases this is always so (`Prepared.regular_of_plain`). An alias that ignores a
parameter is enough for a pattern variable that has several types.
-/

namespace TypeSolver

open Store

/-! ## Stores with places -/

namespace Store

variable {s : Store} {K : Kinds} {place : Var → Place} {p : Place} {t u : Ty}

/-- What a type leads to may stand somewhere. -/
theorem Leads.stands (hl : s.Leads u t) (hs : s.Placed K place)
    (ht : t.Stands K place s.size p) : ∃ q, u.Stands K place s.size q := by
  induction hl generalizing p with
  | refl => exact ⟨p, ht⟩
  | bound hk _ ih => exact ih (hs.bound _ _ hk).2
  | arg _ ih => exact ih (Ty.kinded_func.mp ht).2.1
  | ret _ ih => exact ih (Ty.kinded_func.mp ht).2.2
  | app ha _ ih =>
    obtain ⟨i, hi⟩ := List.getElem?_of_mem ha
    exact ih ((Ty.kinded_app.mp ht).2 i _ hi)
  | field hf _ ih => exact ih ((Ty.kinded_record.mp ht).1 _ hf)
  | ext _ ih => exact ih (Ty.kinded_var.mpr ((Ty.kinded_record.mp ht).2 _ rfl))

theorem Placed.extensionRows (hs : s.Placed K place) (hK : K.strict)
    (ht : t.Stands K place s.size p) : s.ExtensionRows t := by
  intro fields v hl
  obtain ⟨q, hq⟩ := hl.stands hs ht
  obtain ⟨_, hv⟩ := (Ty.kinded_record.mp hq).2 v rfl
  cases hk : s.kind v with
  | free => exact .free hk
  | poisoned => exact .poisoned hk
  | bound b =>
    obtain ⟨hvar, hb⟩ := hs.bound v b hk
    obtain ⟨_, _, rfl⟩ := (hb.of_same Kinds.respects_standing hv).exists_record hK (hvar hK)
    exact .record hk

end Store

/-! ## What the first layer is about -/

section Tiered

variable {P : Ty → Prop} {made madeAt : Var → Rank} {n : Nat} {L : Layer} {Ls : List Layer}
  {s : Store} {v : Var} {k : Rank}

theorem Tiered.shallow (h : Tiered P made n (L :: Ls) s madeAt) (hv : v < n)
    (hle : made v ≤ k) : s.Shallow k v := ⟨hv.trans_le h.size_le, h.within_made hv hle⟩

theorem Tiered.loose (h : Tiered P made n (L :: Ls) s madeAt) (hv : L.rest.Mentions v) :
    s.Loose L.rank v := by
  rcases Nat.lt_or_ge L.rank (made v) with hlt | hle
  · exact .inr (h.isolated L (.head _) v ⟨hv, hlt⟩)
  · exact .inl (h.shallow ((h.stacked.orderly L (.head _)).lt v (.inr hv)) hle)

end Tiered

/-! ## Work inside and outside of boundaries -/

/-- Work at rank `k` in which all boundaries that were entered are those of groups. The variables of
the walk are in `s`. -/
inductive GroupWork (table : AliasTable) (s : Store) : Rank → List Task → Prop where
  | done {k : Rank} : GroupWork table s k []
  | solve {k : Rank} {ctx : Context} {c : Constraint} {ws : List Task} : c.Grounded table s k →
      GroupWork table s k ws → GroupWork table s k (.solve ctx c :: ws)
  | leave {k outer : Rank} {ctx : Context} {vars : List Var} {header : Header}
      {defs body : Constraint} {saved : Option Span} {ws : List Task} :
      (header = [] ∨ ∃ d, defs = .letIn [] header .trivial d) → body.Grounded table s outer →
      GroupWork table s outer ws →
      GroupWork table s k (.leave ctx outer vars header defs body saved :: ws)
  | restore {k : Rank} {saved : Option Span} {ws : List Task} : GroupWork table s k ws →
      GroupWork table s k (.restore saved :: ws)

/-- Work inside a boundary without definitions, of which the equations `cs` are left. -/
inductive PatternWork (table : AliasTable) (s : Store) (outer : Rank) (header : Header) :
    (cs : List Constraint) → List Task → Prop where
  | leave {ctx : Context} {vars : List Var} {defs body : Constraint} {saved : Option Span}
      {ws : List Task} : body.Grounded table s outer → GroupWork table s outer ws →
      PatternWork table s outer header [] (.leave ctx outer vars header defs body saved :: ws)
  | solve {ctx : Context} {c : Constraint} {cs : List Constraint} {ws : List Task} :
      PatternWork table s outer header cs ws →
      PatternWork table s outer header (c.parts ++ cs) (.solve ctx c :: ws)
  | restore {cs : List Constraint} {saved : Option Span} {ws : List Task} :
      PatternWork table s outer header cs ws →
      PatternWork table s outer header cs (.restore saved :: ws)

section Work

variable {table : AliasTable} {s : Store} {k outer : Rank} {header : Header} {ctx : Context}
  {items cs : List Constraint} {ws : List Task}

theorem GroupWork.solveAll (hitems : ∀ c ∈ items, c.Grounded table s k)
    (hws : GroupWork table s k ws) : GroupWork table s k (items.map (.solve ctx) ++ ws) := by
  induction items with
  | nil => exact hws
  | cons c items ih => exact .solve (hitems c (by simp)) (ih fun d hd => hitems d (by simp [hd]))

/-- Equations are their own parts. -/
theorem PatternWork.solveAll (hitems : ∀ c ∈ items, c.compares = true)
    (hws : PatternWork table s outer header cs ws) :
    PatternWork table s outer header (items ++ cs) (items.map (.solve ctx) ++ ws) := by
  induction items with
  | nil => exact hws
  | cons c items ih =>
    have hparts : c.parts = [c] := by
      cases c <;> first | rfl | exact absurd (hitems _ (.head _)) Bool.noConfusion
    have hrest := ih fun d hd => hitems d (by simp [hd])
    have hall := @PatternWork.solve table s outer header ctx c _ _ hrest
    rwa [hparts] at hall

end Work

/-- How the equations that are left in a boundary will tie the variables of its names to what is
around: those in `U` are known already, and about the others nothing was said. -/
structure Anchors (table : AliasTable) (s : Store) (outer : Rank) (header : Header)
    (cs : List Constraint) (U : Var → Prop) : Prop where
  reveals : Constraint.Reveals table (fun v => ∃ e ∈ header, v ∈ e.2.vars) U cs
  known : ∀ v, U v → s.Shallow outer v
  loose : ∀ c ∈ cs, ∀ v, c.Mentions v → s.Loose outer v

namespace Anchors

variable {table : AliasTable} {s s' : Store} {outer : Rank} {header : Header}
  {cs : List Constraint} {U : Var → Prop}

theorem equal {l r : Ty} {span : Span} {fuel : Nat}
    (h : Anchors s.aliases s outer header (.equal l r span :: cs) U)
    (hrun : Runs .tight fuel (.types l r) s (.unified s')) (hs : s.WellFormed) (hh : s.Healthy)
    (hfit : (Call.types l r).Fits s.size) :
    Anchors s.aliases s' outer header cs fun v => U v ∨ v ∈ l.vars ∨ v ∈ r.vars := by
  obtain ⟨hreveals, hknown, hloose⟩ := h
  cases hreveals with
  | equal hlr hrest =>
    have hlooseL : l.Over (s.Loose outer) :=
      hfit.1.restrict fun v hv => hloose _ (.head _) v (.expected hv)
    have hlooseR : r.Over (s.Loose outer) :=
      hfit.2.restrict fun v hv => hloose _ (.head _) v (.actual hv)
    have hties : s.Ties outer l r := hlr.imp
      (fun hlr => ⟨hfit.1.restrict fun v hv => hknown v (hlr.1 v hv), hlr.2.mono hknown, hlooseR⟩)
      fun hlr => ⟨⟨hlr.1.mono hknown, hlooseL⟩, hfit.2.restrict fun v hv => hknown v (hlr.2 v hv)⟩
    have hshallow := hrun.shallow hs hh hfit hties
    have hease : Eases outer s s' := .of_run hrun hs hfit hshallow
    refine ⟨hrest, fun v hv => ?_, fun c hc v hv => ?_⟩
    · rcases hv with hv | hv | hv
      · exact hease.shallow (hknown v hv)
      · exact hshallow.1.mem hv
      · exact hshallow.2.mem hv
    · exact hease.loose (hloose c (by simp [hc]) v hv)

theorem generalizable (h : Anchors table s outer header [] U) (hs : s.Formed) :
    s.generalizable header outer = [] := by
  obtain ⟨hreveals, hknown, _⟩ := h
  cases hreveals with
  | done hV =>
    have hheader : ∀ e ∈ header, ∀ v ∈ e.2.vars, s.Shallow outer v := fun e he v hv =>
      hknown v (hV v ⟨e, he, hv⟩)
    refine List.eq_nil_iff_forall_not_mem.mpr fun q hq => ?_
    obtain ⟨⟨e, he, v, hv, hr⟩, k, hk, hlt⟩ :=
      (mem_generalizable hs fun e he v hv => (hheader e he v hv).lt).mp hq
    have hle := ((hheader e he v hv).within q k hr hk).resolve_left id
    exact absurd hlt (Nat.not_lt.mpr hle)

end Anchors

namespace Moment

variable {fuel : Nat} {m m' : Moment} {made : Var → Rank} {n : Nat}

/-! ## Runs under the tight guard -/

/-- What holds at each moment of a run that keeps the tight guard and records no error. -/
structure Steady (made : Var → Rank) (n : Nat) (m : Moment) : Prop where
  tiered : m.Tiered (fun t => t.Over fun _ => True) made n
  placed : ∃ K place, Kinds.strict K ∧ m.Placed K place
  usable : m.state.store.aliases.Usable

theorem Steady.wellFormed (hm : m.Steady made n) : m.state.store.WellFormed :=
  ⟨hm.tiered.formed, hm.usable⟩

theorem Steady.healthy (hm : m.Steady made n) : m.state.store.Healthy := by
  obtain ⟨_, _, _, hplaced⟩ := hm.placed
  exact hplaced.store.healthy

theorem Step.advances_of_tight (h : Step fuel m m') (hm : m.Steady made n)
    (hguard : ∀ l r s, Compares fuel m l r s → (Call.types l r).Keeps .tight fuel s)
    (herr : m'.state.errors = []) : Advances m m' := by
  rcases h.layers_cases hm.wellFormed.forest.linksEnd with ⟨hs, hmade, heq | ⟨L, Ls, new, heq, hnew, hsplit⟩⟩ |
    ⟨ctx, c, ws, hwork, hlayers, hmade, hcases⟩
  · exact .idle hs hmade heq
  · exact .split hs hmade heq hnew hsplit
  · refine .demand hlayers hmade ?_
    have htiered := hm.tiered
    rw [Tiered, hlayers] at htiered
    have hfits : ∀ t : Ty, (t.Over fun _ => True) → t.Below m.state.store.size →
        t.Fits m.state.store.size := fun t ht hlt => ht.restrict hlt
    rcases hcases with ⟨expected, actual, span, rfl, hrun⟩ | ⟨name, ty, span, rfl, hrun⟩
    · obtain ⟨_, _, hfit⟩ := htiered.equal_fits hfits
      exact htiered.discharges_equal hm.wellFormed hfit
        (hguard _ _ _ (.equal hwork) _ (Solver.runs_of_equate hrun herr))
    · obtain ⟨scheme, u, u', c, hinst, _, _⟩ := htiered.instantiates hfits hrun herr
      obtain ⟨K, place, hK, hplaced⟩ := hm.placed
      obtain ⟨hctx, _⟩ := hplaced.types.work _ (hwork ▸ List.mem_cons_self)
      have hu := hctx _ (Assoc.mem_of_get? hinst.found) _ (Assoc.mem_of_get? hinst.typeOf)
      exact htiered.discharges_instanceOf hm.wellFormed hm.healthy hinst
        (hplaced.store.extensionRows hK hu)
        (hguard _ _ _ (.instanceOf hwork hinst.found hinst.typeOf hinst.made) _ hinst.runs)

theorem Step.steady (h : Step fuel m m') (hm : m.Steady made n)
    (hguard : ∀ l r s, Compares fuel m l r s → (Call.types l r).Keeps .tight fuel s)
    (herr : m'.state.errors = []) : m'.Steady made n := by
  have hadv := h.advances_of_tight hm hguard herr
  obtain ⟨K, place, hK, hplaced⟩ := hm.placed
  obtain ⟨place', _, hplaced'⟩ := h.placed hplaced herr
  exact ⟨hadv.tiered hm.tiered, ⟨K, place', hK, hplaced'⟩, by rw [hadv.aliases]; exact hm.usable⟩

/-! ## Boundaries without definitions -/

/-- At the moment the solver is inside a boundary without definitions, and all that its names stand
for will be known when it is left; or it is inside boundaries of groups only. -/
inductive Anchored (table : AliasTable) (s : Store) (m : Moment) : Prop where
  | outside : GroupWork table s m.state.rank m.work → Anchored table s m
  | inside {outer : Rank} {header : Header} {cs : List Constraint} {U : Var → Prop} :
      PatternWork table s outer header cs m.work →
      Anchors table m.state.store outer header cs U → Anchored table s m

variable {table : AliasTable} {s : Store}

variable {ctx : Context} {vars : List Var} {header : Header} {body defs : Constraint}
  {ws : List Task} {outer : Rank}

theorem Steady.anchors (hm : m.Steady made n)
    (hwork : m.work = .solve ctx (.letIn vars header defs body) :: ws)
    (hmade : ∀ v j, s.Made v j → v < n ∧ made v = j)
    (h : Constraint.Reveals table (fun v => ∃ e ∈ header, v ∈ e.2.vars)
      (fun v => ∃ j ≤ m.state.rank, s.Made v j) defs.parts) :
    Anchors table m.state.store m.state.rank header defs.parts
      fun v => ∃ j ≤ m.state.rank, s.Made v j := by
  have htiered := hm.tiered
  rw [Tiered, layers, hwork] at htiered
  refine ⟨h, fun v hv => ?_, fun c hc v hv => ?_⟩
  · obtain ⟨j, hj, hv⟩ := hv
    obtain ⟨hlt, rfl⟩ := hmade v j hv
    exact htiered.shallow hlt hj
  · exact htiered.loose (.defs (Constraint.mentions_iff_parts.mpr ⟨c, hc, hv⟩))

theorem Step.anchored_of_outside (h : Step fuel m m') (hm : m.Steady made n)
    (hmade : ∀ v j, s.Made v j → v < n ∧ made v = j)
    (hw : GroupWork table s m.state.rank m.work) : m'.Anchored table s := by
  cases h with
  | trivial => cases hw with | solve _ hws => exact .outside hws
  | checkpoint => cases hw with | solve _ hws => exact .outside hws
  | equal hrun =>
    cases hw with
    | solve _ hws => exact .outside (by rw [Solver.rank_of_equate hrun]; exact hws)
  | instanceOf hrun =>
    cases hw with
    | solve _ hws => exact .outside (by rw [Solver.rank_of_equateInstance hrun]; exact hws)
  | conj =>
    cases hw with
    | solve hc hws =>
      cases hc with
      | conj hitems => exact .outside (.solveAll hitems (.restore hws))
  | @enter _ _ _ defs =>
    cases hw with
    | solve hc hws =>
      cases hc with
      | boundary hreveals hbody =>
        have ha := hm.anchors rfl hmade hreveals
        rw [← List.append_nil defs.parts] at ha
        exact .inside (.solve (.leave hbody hws)) ha
      | group hnames hdefs hbody => exact .outside (.solve hdefs (.leave hnames hbody hws))
  | leave => cases hw with | leave _ hbody hws => exact .outside (.solve hbody (.restore hws))
  | restore => cases hw with | restore hws => exact .outside hws

theorem Step.anchored_of_inside (h : Step fuel m m') (hm : m.Steady made n)
    (hguard : ∀ l r s, Compares fuel m l r s → (Call.types l r).Keeps .tight fuel s)
    (herr : m'.state.errors = []) {cs : List Constraint} {U : Var → Prop}
    (hw : PatternWork m.state.store.aliases s outer header cs m.work)
    (ha : Anchors m.state.store.aliases m.state.store outer header cs U) :
    m'.Anchored m.state.store.aliases s := by
  obtain ⟨hreveals, hknown, hloose⟩ := ha
  cases h with
  | trivial => cases hw with | solve hws => exact .inside hws ⟨hreveals, hknown, hloose⟩
  | checkpoint =>
    cases hw with
    | solve hws =>
      cases hreveals with
      | checkpoint hrest => exact .inside hws ⟨hrest, hknown, fun c hc => hloose c (by simp [hc])⟩
  | equal hrun =>
    cases hw with
    | solve hws =>
      have htiered := hm.tiered
      obtain ⟨_, _, hfit⟩ := htiered.equal_fits fun t ht hlt => ht.restrict hlt
      have htight := hguard _ _ _ (.equal rfl) _ (Solver.runs_of_equate hrun herr)
      exact .inside hws
        (Anchors.equal ⟨hreveals, hknown, hloose⟩ htight hm.wellFormed hm.healthy hfit)
  | instanceOf => cases hw with | solve hws => cases hreveals
  | conj =>
    cases hw with
    | solve hws =>
      refine .inside (.solveAll (fun c hc => ?_) (.restore hws)) ⟨hreveals, hknown, hloose⟩
      exact hreveals.compares c (List.mem_append_left _ hc)
  | enter => cases hw with | solve hws => cases hreveals
  | leave => cases hw with | leave hbody hws => exact .outside (.solve hbody (.restore hws))
  | restore => cases hw with | restore hws => exact .inside hws ⟨hreveals, hknown, hloose⟩

theorem Step.anchored (h : Step fuel m m') (hm : m.Steady made n)
    (hguard : ∀ l r s, Compares fuel m l r s → (Call.types l r).Keeps .tight fuel s)
    (herr : m'.state.errors = []) (hmade : ∀ v j, s.Made v j → v < n ∧ made v = j)
    (ha : m.Anchored m.state.store.aliases s) : m'.Anchored m'.state.store.aliases s := by
  rw [(h.advances_of_tight hm hguard herr).aliases]
  cases ha with
  | outside hw => exact h.anchored_of_outside hm hmade hw
  | inside hw ha => exact h.anchored_of_inside hm hguard herr hw ha

theorem Steps.anchored (h : Steps fuel m m') (hm : m.Steady made n) (hguard : m.Guarded .tight fuel)
    (herr : m'.state.errors = []) (hmade : ∀ v j, s.Made v j → v < n ∧ made v = j)
    (ha : m.Anchored m.state.store.aliases s) :
    m'.Steady made n ∧ m'.Anchored m'.state.store.aliases s := by
  induction h with
  | refl => exact ⟨hm, ha⟩
  | @tail m1 m2 hsteps hstep ih =>
    have herr1 := Steps.errors_eq_nil (.single hstep) herr
    obtain ⟨hm1, ha1⟩ := ih herr1
    have hguard1 := fun l r s => hguard m1 l r s hsteps herr1
    exact ⟨hstep.steady hm1 hguard1 herr, hstep.anchored hm1 hguard1 herr hmade ha1⟩

theorem Anchored.exists_group (h : m.Anchored table s) (hs : m.state.store.Formed)
    {saved : Option Span} (hwork : m.work = .leave ctx outer vars header defs body saved :: ws)
    (hne : m.state.store.generalizable header outer ≠ []) :
    ∃ d, defs = .letIn [] header .trivial d := by
  cases h with
  | outside hw =>
    rw [hwork] at hw
    cases hw with
    | leave hnames =>
      refine hnames.resolve_left fun hnil => hne ?_
      rw [hnil]
      rfl
  | inside hw ha =>
    rw [hwork] at hw
    cases hw with
    | leave => exact absurd (ha.generalizable hs) hne

end Moment

/-! ## Programs -/

/-- With aliases expanded, what constructors build still mentions their parameters. -/
def Environment.ShowsParameters (env : Environment) : Prop :=
  ∀ table, env.aliasTable = .ok table → ∀ e ∈ env.constructors, e.2.Shows table

namespace Prepared

variable {program : Program} {env : Environment} {p : Prepared}

/-- The constraint of a program is grounded. -/
theorem grounded_constraint (h : ofProgram program env = .ok p) (hshows : env.ShowsParameters) :
    p.constraint.Grounded p.store.aliases p.store 0 := by
  obtain ⟨table, htable, haliases, _⟩ := ofProgram_makes env.kinded_loose.admits (.inl .intro) h
  refine ofProgram_carries h (Generate.grounded_carries ?_)
  rw [haliases]
  exact hshows table htable

theorem lt_of_made {s : Store} (hs : s.Untouched) {v : Var} {j : Rank} (h : s.Made v j) :
    v < s.size ∧ s.ranks v = j := by
  obtain ⟨hint, hv⟩ := h
  refine ⟨(Array.getElem?_eq_some_iff.mp hv).1, ?_⟩
  rw [Store.ranks, rank?, content, hs.root, hv]
  rfl

theorem steady_start (h : ofProgram program env = .ok p) (hordered : env.Ordered)
    (hsorted : env.Sorted) (hplaces : env.KeepsPlaces) (config : Config) :
    (p.start config).Steady p.store.ranks p.store.size := by
  obtain ⟨param, hkinded⟩ := hplaces
  obtain ⟨table, htable, haliases, _⟩ := ofProgram_makes hsorted.admits (.inl .intro) h
  obtain ⟨_, htiered⟩ := tiered_start hsorted.admits (.inl .intro) h config
  obtain ⟨place, hplaced⟩ := placed_start hkinded h config
  refine ⟨htiered, ⟨⟨True, param⟩, place, .intro, hplaced⟩, ?_⟩
  show p.store.aliases.Usable
  rw [haliases]
  exact Environment.aliasTable_usable hordered htable

end Prepared

/-- Comparisons of first-order types keep the tight guard. -/
theorem Moment.Compares.tight {fuel n : Nat} {made : Var → Rank} {m : Moment} {l r : Ty} {s : Store}
    (h : Compares fuel m l r s) (hm : m.Layered made n) :
    (Call.types l r).Keeps .tight fuel s := by
  intro o hruns
  obtain ⟨work, st, madeAt⟩ := m
  cases h with
  | equal hwork =>
    cases hwork
    obtain ⟨he, ha, hfits⟩ := hm.equal_fits fun t ht => ht.fits
    exact hruns.tight hm.firstOrder ⟨he, ha⟩ hfits
  | instanceOf hwork hscheme hu hinst =>
    cases hwork
    have hs := hm.firstOrder
    cases (hm.stacked.orderly _ (.head _)).types with | instanceOf ht =>
    have hsettled := hm.schemes _ (.head _) _ (Assoc.mem_of_get? hscheme)
    have hfirst := hsettled.types _ (Assoc.mem_of_get? hu)
    have hfits := hfirst.fits fun v hv =>
      (hsettled.lt _ (Assoc.mem_of_get? hu) v hv).trans_le hm.size_le
    have htfits := ht.fits fun v hv => hm.mentions_lt (.instanceOf hv)
    obtain ⟨c, rfl, hc, hcopied⟩ := Store.instance_copied hs.forest hs.toFormed.contained hinst
      hfits.below
    refine hruns.tight (refines_of_extends hc hs).firstOrder ?_ ?_
    · rw [hc.aliases]
      rcases hcopied with ⟨_, rfl, _⟩ | hcopied
      · exact ⟨ht, hfirst⟩
      · exact ⟨ht, hcopied.firstOrder hs hfirst⟩
    · rcases hcopied with ⟨_, rfl, _⟩ | hcopied
      · exact ⟨htfits.mono hc.size_le, hfits.mono hc.size_le⟩
      · exact ⟨htfits.mono hc.size_le,
          hcopied.fits hs.toFormed hc.size_le (fun q w h => (hc.target q w h).2) hfits⟩

/-! ## Programs without records and aliases -/

namespace Signature

variable {sig : Signature}

theorem ordered_of_plain (h : sig.plain = true) : sig.Ordered := by
  induction sig with
  | var => exact .var
  | con name args ih =>
    rw [plain, plainSignatures_iff] at h
    exact .con fun a ha => ih a ha (h a ha)
  | func arg ret iha ihr =>
    rw [plain, Bool.and_eq_true] at h
    exact .func (iha h.1) (ihr h.2)
  | record => cases h

/-- Without records, everything stands where types stand. -/
theorem kinded_of_plain {K : Kinds} (hK : ∀ name n i, K.param name n i = .type)
    (h : sig.plain = true) : sig.Kinded K (fun _ p => K.Same .type p) .type := by
  induction sig with
  | var => exact .var .refl
  | con name args ih =>
    rw [plain, plainSignatures_iff] at h
    refine .con .refl fun i a ha => ?_
    have hmem := List.mem_of_getElem? ha
    rw [hK]
    exact ih a hmem (h a hmem)
  | func arg ret iha ihr =>
    rw [plain, Bool.and_eq_true] at h
    exact .func .refl (iha h.1) (ihr h.2)
  | record => cases h

end Signature

/-- The conditions under which patterns get no more than one type. -/
structure Moment.Regular (env : Environment) (fuel : Nat) (m : Moment) : Prop where
  ordered : env.Ordered
  sorted : env.Sorted
  places : env.KeepsPlaces
  parameters : env.ShowsParameters
  tight : m.Guarded .tight fuel

theorem Moment.Guarded.regular {env : Environment} {fuel : Nat} {m : Moment}
    (h : m.Guarded .tight fuel) (henv : env.plain = true) : m.Regular env fuel where
  ordered e he := by
    simp only [Environment.plain, Bool.and_eq_true, List.isEmpty_iff] at henv
    rw [henv.1.1] at he
    cases he
  sorted sig hsig := Signature.ordered_of_plain (Environment.plain_of_offers henv hsig)
  places := by
    refine ⟨fun _ _ _ => .type, fun e he => ?_, fun sig hsig => ⟨fun _ => .type, ?_⟩, .refl⟩
    · simp only [Environment.plain, Bool.and_eq_true, List.isEmpty_iff] at henv
      rw [henv.1.1] at he
      cases he
    · exact Signature.kinded_of_plain (fun _ _ _ => rfl) (Environment.plain_of_offers henv hsig)
  parameters table htable e he := by
    cases htable.symm.trans (Environment.aliasTable_of_plain henv)
    exact Constructor.shows_of_not_alias rfl
  tight := h

theorem Prepared.regular_of_plain {program : Program} {env : Environment} {p : Prepared}
    (h : ofProgram program env = .ok p) (hprogram : program.plain = true) (henv : env.plain = true)
    (config : Config) (fuel : Nat) : (p.start config).Regular env fuel := by
  have hguard : (p.start config).Guarded .tight fuel := fun m l r s hsteps herr hcompares =>
    hcompares.tight (hsteps.layered (layered_start hprogram henv h config) herr)
  exact hguard.regular henv

theorem Solver.equateInstance_of_unquantified {ctx : Context} {header : Header} {scheme : Scheme}
    {name : String} {t : Ty} (hq : scheme.quantifiers = []) (hheader : scheme.header = header)
    (ht : Assoc.get? header name = some t) (st : Solver) (fuel : Nat) (ty : Ty) (span : Span) :
    st.equateInstance fuel (bindNames ctx header scheme) name ty span =
      st.equate fuel ty t span := by
  have hget : Assoc.get? (bindNames ctx header scheme) name = some scheme := by
    rw [get?_bindNames, if_pos (Assoc.mem_keys_of_get? ht)]
  have hinst : st.store.instantiate fuel [] st.rank t = some (t, st.store) := rfl
  simp only [equateInstance, hget, Scheme.typeOf?, hheader, ht, hq, hinst]

namespace Moment

/-- Only groups of definitions are polymorphic. As long as no error is recorded, a boundary that
binds parameters, the pattern of a branch, or the names of a group around its own definitions gets a
scheme without quantifiers when it is left, so that each use of such a name is about one and the same
type. A scheme that has quantifiers is that of a group, inside of which its names are bound in this
way. -/
theorem only_groups_quantified {program : Program} {env : Environment} {p : Prepared}
    {config : Config} {fuel : Nat} {m : Moment} (hp : Prepared.ofProgram program env = .ok p)
    (hregular : program.plain = true ∧ env.plain = true ∨ (p.start config).Regular env fuel)
    (hm : Steps fuel (p.start config) m) (herr : m.state.errors = []) {ctx : Context} {outer : Rank}
    {vars : List Var} {header : Header} {defs body : Constraint} {saved : Option Span}
    {ws : List Task} (hwork : m.work = .leave ctx outer vars header defs body saved :: ws) :
    (Generate.Local env defs → (m.state.schemeAt outer vars header defs).quantifiers = [] ∧
      ∀ name t, Assoc.get? header name = some t → ∀ (st : Solver) (ty : Ty) (span : Span),
        st.equateInstance fuel
          (Solver.bindNames ctx header (m.state.schemeAt outer vars header defs)) name ty span =
        st.equate fuel ty t span) ∧
    ((m.state.schemeAt outer vars header defs).quantifiers ≠ [] →
      ∃ d, defs = .letIn [] header .trivial d) := by
  obtain ⟨hordered, hsorted, hplaces, hshows, hguard⟩ : (p.start config).Regular env fuel :=
    hregular.elim (fun h => Prepared.regular_of_plain hp h.1 h.2 config fuel) id
  obtain ⟨table, htable, _, _, huntouched, _⟩ :=
    ofProgram_makes env.kinded_loose.admits (.inl .intro) hp
  have hstart : (p.start config).Anchored p.store.aliases p.store :=
    .outside (.solve (Prepared.grounded_constraint hp hshows) .done)
  obtain ⟨hsteady, hanchored⟩ := hm.anchored
    (Prepared.steady_start hp hordered hsorted hplaces config) hguard herr
    (fun _ _ => Prepared.lt_of_made huntouched) hstart
  have hgroup : (m.state.schemeAt outer vars header defs).quantifiers ≠ [] →
      ∃ d, defs = .letIn [] header .trivial d := fun hne =>
    hanchored.exists_group hsteady.tiered.formed hwork
      (by rwa [← generalize_fst hsteady.tiered.formed.forest.linksEnd])
  refine ⟨fun hlocal => ?_, hgroup⟩
  have hnil : (m.state.schemeAt outer vars header defs).quantifiers = [] := by
    refine Classical.byContradiction fun hne => ?_
    obtain ⟨d, rfl⟩ := hgroup hne
    exact hlocal.ne_letIn (hshows table htable)
  exact ⟨hnil, fun name t ht st ty span =>
    Solver.equateInstance_of_unquantified hnil rfl ht st fuel ty span⟩

/-- The parameter of a function whose body asks it for two fields. -/
theorem only_groups_quantified_twoFields : ∃ m ctx body saved ws,
    Prepared.ofProgram twoFields {} = .ok twoFieldsPrepared ∧
    (twoFieldsPrepared.start {}).Regular {} 20 ∧ Steps 20 (twoFieldsPrepared.start {}) m ∧
    m.state.errors = [] ∧ m.work = .leave ctx 1 [3] [("r", .var 3)] (.equal (.var 1) (.var 3) {})
      body saved :: ws ∧
    Generate.Local {} (.equal (.var 1) (.var 3) {}) ∧
    (m.state.schemeAt 1 [3] [("r", .var 3)] (.equal (.var 1) (.var 3) {})).quantifiers = [] := by
  have hregular : (twoFieldsPrepared.start {}).Regular {} 20 := (twoFields_guarded .tight).regular rfl
  have hlocal : Generate.Local {} (.equal (.var 1) (.var 3) {}) := by
    have hrun : Generate.patterns {} [⟨{}, .var "r"⟩] [.var 1] { store := blank [] 3, rank := 2 } =
      .ok [⟨[("r", .var 3)], [3], .equal (.var 1) (.var 3) {}⟩] _ := rfl
    exact .parameters hrun
  obtain ⟨m, ctx, body, saved, ws, hafter, herr, hwork⟩ : ∃ m ctx body saved ws,
      (twoFieldsPrepared.start {}).after 20 8 = some m ∧ m.state.errors = [] ∧
      m.work = .leave ctx 1 [3] [("r", .var 3)] (.equal (.var 1) (.var 3) {}) body saved :: ws := by
    generalize hafter : Moment.after 20 8 _ = o
    cbv at hafter
    exact ⟨_, _, _, _, _, hafter.symm, rfl, rfl⟩
  have hsteps := steps_of_after hafter
  exact ⟨m, ctx, body, saved, ws, twoFields_prepared, hregular, hsteps, herr, hwork, hlocal,
    ((only_groups_quantified twoFields_prepared (.inr hregular) hsteps herr hwork).1 hlocal).1⟩

/-! ## A parameter that does not show -/

def phantoms : Environment where
  aliases := [("Phantom", { params := ["a", "b"], body := .con "List" [.var "a"] })]
  constructors := [("MkP", { result := "Phantom", params := ["a", "b"], args := [.var "b"] })]

/-- A list is taken apart, and the variable of the pattern is used as a truth value and as a number. -/
def reused : Program where
  groups := [
    ⟨[{ name := "main", params := [], span := {},
        body := ⟨0, {}, .case ⟨1, {}, .list [⟨2, {}, .literal (.int 1)⟩]⟩
          [⟨⟨{}, .ctor "MkP" [⟨{}, .var "x"⟩]⟩, ⟨3, {}, .ite ⟨4, {}, .var "x"⟩
            ⟨5, {}, .list [⟨6, {}, .literal (.int 1)⟩, ⟨7, {}, .var "x"⟩]⟩
            ⟨8, {}, .list []⟩⟩, {}⟩]⟩ }]⟩]

def reusedPattern : Constraint :=
  .conj [.checkpoint {}, .equal (.var 3) (.app "Phantom" [.var 5, .var 6]) {},
    .equal (.func (.var 7) (.app "Phantom" [.var 5, .var 6]))
      (.func (.var 6) (.app "Phantom" [.var 5, .var 6])) {},
    .equal (.var 7) (.var 8) {}]

theorem reusedPattern_local : Generate.Local phantoms reusedPattern := by
  obtain ⟨f, g, hrun, heq⟩ : ∃ f g, Generate.pattern phantoms ⟨{}, .ctor "MkP" [⟨{}, .var "x"⟩]⟩
      (.var 3) { store := blank phantoms.aliases 5, rank := 2 } = .ok f g ∧
      (Constraint.checkpoint {}).and f.constraint = reusedPattern := by
    generalize hrun : Generate.pattern _ _ _ _ = result
    cbv at hrun
    exact ⟨_, _, hrun.symm, rfl⟩
  rw [← heq]
  exact .branch {} hrun

/-- Nothing ties the variable of the pattern to the list. It is quantified, and used at two types in
a program that gets types. -/
theorem quantified_phantom : ∃ p m ctx body ws,
    Prepared.ofProgram reused phantoms = .ok p ∧ Steps 20 (p.start {}) m ∧ m.state.errors = [] ∧
    m.work = .leave ctx 1 [7, 8] [("x", .var 8)] reusedPattern body (some {}) :: ws ∧
    Generate.Local phantoms reusedPattern ∧
    (m.state.schemeAt 1 [7, 8] [("x", .var 8)] reusedPattern).quantifiers = [8] ∧
    ∃ typed, inferProgram 20 reused phantoms {} = some (.ok typed) ∧
      Assoc.get? typed.nodeTypes 4 = some (.app "Bool" []) ∧
      Assoc.get? typed.nodeTypes 7 = some (.app "Int" []) := by
  obtain ⟨p, m, ctx, body, ws, hrun, herr, hwork, hquant⟩ : ∃ p m ctx body ws,
      Prepared.afterSteps 20 15 reused phantoms = some (p, m) ∧ m.state.errors = [] ∧
      m.work = .leave ctx 1 [7, 8] [("x", .var 8)] reusedPattern body (some {}) :: ws ∧
      (m.state.schemeAt 1 [7, 8] [("x", .var 8)] reusedPattern).quantifiers = [8] := by
    generalize hrun : Prepared.afterSteps 20 15 _ _ = o
    cbv at hrun
    exact ⟨_, _, _, _, _, hrun.symm, rfl, rfl, by cbv⟩
  obtain ⟨hp, hsteps⟩ := Prepared.steps_of_afterSteps hrun
  generalize htyped : inferProgram 20 reused phantoms {} = typed
  cbv at htyped
  exact ⟨p, m, ctx, body, ws, hp, hsteps, herr, hwork, reusedPattern_local, hquant, _,
    htyped.symm, rfl, rfl⟩

end Moment
end TypeSolver
