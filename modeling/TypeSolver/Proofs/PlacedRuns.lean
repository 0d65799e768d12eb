import TypeSolver.Proofs.Copies
import TypeSolver.Proofs.Generalization
import TypeSolver.Proofs.Placed

/-!
# TypeSolver.Proofs.PlacedRuns

Runs of the solver in which every variable has a place. Copies stand where their originals do
(`Placed.instantiate`), and as long as no error is recorded, each step leaves all variables at their
places (`Step.placed`): then all types that are compared may stand where they are
(`Compares.stands`).
-/

namespace TypeSolver

namespace Copying

variable {K : Kinds} {place : Var → Place} {s : Store} {qs : List Var} {rank : Rank} {c : Copying}
  {p : Place} {t u : Ty}

def places (place : Var → Place) (copies : List (Var × Var)) (w : Var) : Place :=
  match copies.find? fun e => e.2 = w with
  | some e => place e.1
  | none => place w

theorem Extends.places_copy (hc : Extends s qs rank c) {q w : Var} (h : (q, w) ∈ c.copies) :
    places place c.copies w = place q := by
  rw [places]
  split
  · rename_i e he
    obtain rfl : e.2 = w := by simpa using List.find?_some he
    rw [hc.injective e.1 q e.2 (List.mem_of_find?_eq_some he) h]
  · rename_i hnone
    exact absurd (decide_eq_true rfl) (List.find?_eq_none.mp hnone _ h)

theorem Extends.places_old (hc : Extends s qs rank c) {v : Var} (hv : v < s.size) :
    places place c.copies v = place v := by
  rw [places]
  split
  · rename_i e he
    obtain rfl : e.2 = v := by simpa using List.find?_some he
    exact absurd hv (Nat.not_lt.mpr (hc.target e.1 e.2 (List.mem_of_find?_eq_some he)).1)
  · rfl

theorem Extends.grows (hc : Extends s qs rank c) (hs : s.Placed K place) :
    Store.Grows K place s (places place c.copies) c.store := by
  have hkind : ∀ v, v < s.size → c.store.kind v = s.kind v := fun v hv => by
    rw [Store.kind, hc.content v hv, Store.kind]
  have hnew : ∀ v, s.size ≤ v → v < c.store.size → c.store.kind v = .free := fun v hle hlt =>
    Store.kind_eq_free.mpr ⟨rank, hc.unbound v hle hlt⟩
  refine ⟨hc.size_le, fun v hv => hc.places_old hv, hc.aliases, hc.forest, fun v hv => ?_,
    fun v hv => ?_, fun v t hk => ?_, by rw [hc.aliases]; exact hs.table⟩
  · rcases Nat.lt_or_ge v s.size with hlt | hge
    · rw [hkind v hlt]; exact hs.healthy v hlt
    · rw [hnew v hge hv]; simp
  · rw [hc.root]
    rcases Nat.lt_or_ge v s.size with hlt | hge
    · rw [hc.places_old hlt, hc.places_old (hs.forest.root_lt hlt)]; exact hs.root v hlt
    · rw [(Store.Forest.root_of_size_le hge).1]; exact .refl
  · have hlt : v < c.store.size := Store.lt_of_kind (by rw [hk]; simp)
    rcases Nat.lt_or_ge v s.size with hv | hge
    · rw [hkind v hv] at hk
      obtain ⟨hnv, hst⟩ := hs.bound v t hk
      rw [hc.places_old hv]
      exact ⟨hnv, hst.mono fun w _ q hw =>
        ⟨hw.1.trans_le hc.size_le, by rw [hc.places_old hw.1]; exact hw.2⟩⟩
    · rw [hnew v hge hlt] at hk; cases hk

theorem extend_stands {n : Nat} {fields : List (String × Ty)} {v : Var} {rest : Ty}
    (hfields : ∀ f ∈ fields, f.2.Stands K place n .type) (hv : K.Standing place n v .row)
    (hrest : rest.Stands K place n .row) : (extend fields v rest).Stands K place n p := by
  cases rest with
  | var w => exact .record hfields (by rintro _ ⟨⟩; exact Ty.kinded_var.mp hrest)
  | record more rest => exact Ty.kinded_union hfields hrest
  | func => exact .record hfields (by rintro _ ⟨⟩; exact hv)
  | app => exact .record hfields (by rintro _ ⟨⟩; exact hv)

theorem Copied.stands (h : Copied s qs c.copies t u) (hc : Extends s qs rank c)
    (hs : s.Placed K place) (ht : t.Stands K place s.size p) :
    u.Stands K (places place c.copies) c.store.size p := by
  have hg := hc.grows hs
  have hfields : ∀ {fields fs : List (String × Ty)} {ext p}, (Ty.record fields ext).Stands K place
      s.size p → Assoc.Related (fun t u => ∀ {p}, t.Stands K place s.size p →
        u.Stands K (places place c.copies) c.store.size p) fields fs →
      ∀ g ∈ fs, g.2.Stands K (places place c.copies) c.store.size .type := fun ht hrel g hmem => by
    obtain ⟨f, hf, _, hfg⟩ := hrel.exists_left hmem
    exact hfg ((Ty.kinded_record.mp ht).1 f hf)
  induction h generalizing p with
  | copy hw =>
    have hroot := hs.standing_root (Ty.kinded_var.mp ht)
    exact .var ⟨(hc.target _ _ hw).2, by rw [hc.places_copy hw]; exact hroot.2⟩
  | @bound v t u hk _ ih =>
    exact ih ((hs.bound v t hk).2.of_same Kinds.respects_standing (Ty.kinded_var.mp ht).2)
  | free => exact hg.stands ht
  | poisoned => exact hg.stands ht
  | func _ _ iha ihr =>
    obtain ⟨hp, ha, hr⟩ := Ty.kinded_func.mp ht
    exact .func hp (iha ha) (ihr hr)
  | @app name args ts hlen _ ih =>
    obtain ⟨hp, hargs⟩ := Ty.kinded_app.mp ht
    refine .app hp fun i b hb => ?_
    obtain ⟨a, ha, hab⟩ := exists_getElem?_of_forall₂ (forall₂_of_zip hlen ih) hb
    rw [← hlen]
    exact hab (hargs i a ha)
  | closed hkeys _ ih =>
    exact .record (hfields ht (Assoc.related_of_zip hkeys ih)) (by rintro _ ⟨⟩)
  | @opened fields fs v u hkeys _ _ ih ihv =>
    have hv := (Ty.kinded_record.mp ht).2 v rfl
    exact extend_stands (hfields ht (Assoc.related_of_zip hkeys ih)) (hg.standing hv) (ihv (.var hv))

end Copying

namespace Store

variable {K : Kinds} {place : Var → Place} {s s' : Store} {p : Place} {t u : Ty}

theorem below_of_stands {n : Nat} (h : t.Stands K place n p) : t.Below n := fun _ hv => by
  obtain ⟨_, hlt, _⟩ := h.exists_place hv
  exact hlt

theorem Placed.contained (hs : s.Placed K place) : s.Contained := fun v t hk =>
  below_of_stands (hs.bound v t hk).2

theorem Placed.instantiate {fuel : Nat} {qs : List Var} {rank : Rank} (hs : s.Placed K place)
    (h : s.instantiate fuel qs rank t = some (u, s')) (ht : t.Stands K place s.size p) :
    ∃ place', Grows K place s place' s' ∧ u.Stands K place' s'.size p := by
  obtain ⟨c, rfl, hc, ⟨_, rfl, heq⟩ | hu⟩ :=
    instance_copied hs.forest hs.contained h (below_of_stands ht)
  · rw [heq]; exact ⟨place, .refl hs, ht⟩
  · exact ⟨_, hc.grows hs, hu.stands hc hs ht⟩

end Store

def Context.Types (P : Ty → Prop) (ctx : Context) : Prop := ∀ e ∈ ctx, ∀ h ∈ e.2.header, P h.2

theorem Context.Types.bindNames {P : Ty → Prop} {ctx : Context} (h : ctx.Types P) {header : Header}
    {scheme : Scheme} (hscheme : ∀ e ∈ scheme.header, P e.2) :
    Context.Types P (Solver.bindNames ctx header scheme) := by
  intro e he
  rcases Layer.mem_bindNames he with he | heq
  · exact h e he
  · rw [heq]; exact hscheme

def Task.Types (P : Ty → Prop) : Task → Prop
  | .solve ctx c => ctx.Types P ∧ c.Types P
  | .leave ctx _ _ header _ body _ => ctx.Types P ∧ (∀ e ∈ header, P e.2) ∧ body.Types P
  | .restore _ => True

namespace Moment

structure Types (P : Ty → Prop) (m : Moment) : Prop where
  work : ∀ w ∈ m.work, w.Types P
  topLevel : Context.Types P m.state.topLevel

variable {fuel : Nat} {m m' : Moment}

theorem Types.imp {P P' : Ty → Prop} (h : m.Types P) (hP : ∀ t, P t → P' t) : m.Types P' := by
  refine ⟨fun w hw => ?_, fun e he t ht => hP _ (h.topLevel e he t ht)⟩
  have hw' := h.work w hw
  cases w with
  | solve ctx c => exact ⟨fun e he t ht => hP _ (hw'.1 e he t ht), hw'.2.imp fun t ht _ => hP t ht⟩
  | leave ctx outer vars header defs body saved =>
    exact ⟨fun e he t ht => hP _ (hw'.1 e he t ht), fun e he => hP _ (hw'.2.1 e he),
      hw'.2.2.imp fun t ht _ => hP t ht⟩
  | restore saved => exact .intro

theorem Step.types {P : Ty → Prop} (h : Step fuel m m') (hm : m.Types P) : m'.Types P := by
  obtain ⟨hwork, htop⟩ := hm
  cases h with
  | trivial => exact ⟨fun w hw => hwork w (by simp [hw]), htop⟩
  | checkpoint => exact ⟨fun w hw => hwork w (by simp [hw]), htop⟩
  | equal h =>
    exact ⟨fun w hw => hwork w (by simp [hw]), by rw [Solver.topLevel_of_equate h]; exact htop⟩
  | instanceOf h =>
    obtain ⟨_, _, _, s, _, _, _, h⟩ := Solver.equateInstance_eq_done h
    exact ⟨fun w hw => hwork w (by simp [hw]), by rw [Solver.topLevel_of_equate h]; exact htop⟩
  | @conj ctx items ws st made =>
    refine ⟨fun w hw => ?_, htop⟩
    obtain ⟨hctx, hc⟩ := hwork (.solve ctx (.conj items)) (by simp)
    cases hc with
    | conj hitems =>
      rcases List.mem_append.mp hw with hw | hw
      · obtain ⟨c, hc, rfl⟩ := List.mem_map.mp hw
        exact ⟨hctx, hitems c hc⟩
      · rcases List.mem_cons.mp hw with rfl | hw
        · exact .intro
        · exact hwork w (by simp [hw])
  | @enter ctx vars header defs body ws st made =>
    refine ⟨fun w hw => ?_, htop⟩
    obtain ⟨hctx, hc⟩ := hwork (.solve ctx (.letIn vars header defs body)) (by simp)
    cases hc with
    | letIn hheader hdefs hbody =>
      simp only [List.mem_cons] at hw
      rcases hw with rfl | rfl | hw
      · exact ⟨hctx, hdefs⟩
      · exact ⟨hctx, hheader, hbody⟩
      · exact hwork w (by simp [hw])
  | @leave ctx outer vars header defs body saved ws st made =>
    obtain ⟨hctx, hheader, hbody⟩ := hwork (.leave ctx outer vars header defs body saved) (by simp)
    refine ⟨fun w hw => ?_, ?_⟩
    · simp only [List.mem_cons] at hw
      rcases hw with rfl | rfl | hw
      · exact ⟨hctx.bindNames hheader, hbody⟩
      · exact .intro
      · exact hwork w (by simp [hw])
    · rw [Solver.left]
      split
      · exact htop.bindNames hheader
      · exact htop
  | restore => exact ⟨fun w hw => hwork w (by simp [hw]), htop⟩

/-- The next task is to make two types equal in this store. -/
inductive Compares (fuel : Nat) (m : Moment) : Ty → Ty → Store → Prop where
  | equal {ctx : Context} {expected actual : Ty} {span : Span} {ws : List Task} :
      m.work = .solve ctx (.equal expected actual span) :: ws →
      Compares fuel m expected actual m.state.store
  | instanceOf {ctx : Context} {name : String} {t u u' : Ty} {span : Span} {ws : List Task}
      {scheme : Scheme} {s : Store} : m.work = .solve ctx (.instanceOf name t span) :: ws →
      Assoc.get? ctx name = some scheme → scheme.typeOf? name = some u →
      m.state.store.instantiate fuel scheme.quantifiers m.state.rank u = some (u', s) →
      Compares fuel m t u' s

theorem unified_of_equate {st st' : Solver} {expected actual : Ty} {span : Span}
    (h : st.equate fuel expected actual span = .done () st') (herr : st'.errors = []) :
    Store.unify fuel expected actual st.store = .unified st'.store := by
  rcases Solver.equate_eq_done h with ⟨s, hs, rfl⟩ | ⟨m, s, _, rfl⟩
  · exact hs
  · exact absurd herr (Solver.report_errors_ne _ _ _)

theorem Step.compares (h : Step fuel m m') (hl : m.state.store.LinksEnd)
    (herr : m'.state.errors = []) :
    Store.Relinked m.state.store m'.state.store ∨ ∃ l r s, Compares fuel m l r s ∧
      Store.unify fuel l r s = .unified m'.state.store := by
  cases h with
  | equal h => exact .inr ⟨_, _, _, .equal rfl, unified_of_equate h herr⟩
  | instanceOf h =>
    obtain ⟨scheme, u, u', s, hscheme, hu, hs, h⟩ := Solver.equateInstance_eq_done h
    exact .inr ⟨_, _, _, .instanceOf rfl hscheme hu hs, unified_of_equate h herr⟩
  | @leave _ outer _ header => exact .inl (Store.generalize_relinked hl header outer)
  | _ => exact .inl .refl

variable {K : Kinds} {place : Var → Place}

/-- All that the moment is about stands where it may. -/
structure Placed (K : Kinds) (place : Var → Place) (m : Moment) : Prop where
  store : m.state.store.Placed K place
  types : m.Types (Ty.Stands K place m.state.store.size .type)

theorem Compares.stands {l r : Ty} {s : Store} (h : Compares fuel m l r s) (hm : m.Placed K place) :
    ∃ place', Store.Grows K place m.state.store place' s ∧
      (Store.Call.types l r).Stands K place' s.size := by
  cases h with
  | equal hwork =>
    obtain ⟨_, htypes⟩ := hm.types.work _ (hwork ▸ List.mem_cons_self)
    cases htypes with
    | equal he ha => exact ⟨place, .refl hm.store, .type, he, ha⟩
  | instanceOf hwork hscheme hu hinst =>
    obtain ⟨hctx, htypes⟩ := hm.types.work _ (hwork ▸ List.mem_cons_self)
    cases htypes with
    | instanceOf ht =>
      have hu' := hctx _ (Assoc.mem_of_get? hscheme) _ (Assoc.mem_of_get? hu)
      obtain ⟨place', hg, hcopy⟩ := hm.store.instantiate hinst hu'
      exact ⟨place', hg, .type, hg.stands ht, hcopy⟩

theorem Step.placed (h : Step fuel m m') (hm : m.Placed K place) (herr : m'.state.errors = []) :
    ∃ place', Store.Grows K place m.state.store place' m'.state.store ∧ m'.Placed K place' := by
  have htypes := h.types hm.types
  have hf := hm.store.forest
  rcases h.compares hf.linksEnd herr with hs | ⟨l, r, s, hlr, hunify⟩
  · have hgrows := hm.store.alike (hs.forest hf) (hs.alike hf.linksEnd)
    exact ⟨place, hgrows, hgrows.placed, htypes.imp fun t ht => hgrows.stands ht⟩
  · obtain ⟨place1, hg, hst⟩ := hlr.stands hm
    have hran : Store.Ran fuel (.types l r) s (.unified m'.state.store) := ⟨hunify, by simp⟩
    obtain ⟨place2, hg'⟩ := Store.ran_keeps fuel hran hg.placed hst
    have hgrows := hg.trans hg'
    exact ⟨place2, hgrows, hgrows.placed, htypes.imp fun t ht => hgrows.stands ht⟩

theorem Steps.placed (h : Steps fuel m m') (hm : m.Placed K place) (herr : m'.state.errors = []) :
    ∃ place', Store.Grows K place m.state.store place' m'.state.store ∧ m'.Placed K place' := by
  induction h with
  | refl => exact ⟨place, .refl hm.store, hm⟩
  | tail _ hstep ih =>
    obtain ⟨place1, hg, hm1⟩ := ih (Steps.errors_eq_nil (.single hstep) herr)
    obtain ⟨place2, hg', hm2⟩ := hstep.placed hm1 herr
    exact ⟨place2, hg.trans hg', hm2⟩

end Moment

theorem Store.Untouched.placed {K : Kinds} {s : Store} (h : s.Untouched) (ht : s.aliases.Kinded K)
    (place : Var → Place) : s.Placed K place :=
  ⟨h.forest, fun v hv => by rw [h.free v hv]; simp, fun v _ => by rw [h.root]; exact .refl,
    fun v t hk => absurd hk (h.not_bound v t), ht⟩

theorem Prepared.placed_start {K : Kinds} {program : Program} {env : Environment} {p : Prepared}
    (henv : env.Kinded K) (h : ofProgram program env = .ok p) (config : Config) :
    ∃ place, (p.start config).Placed K place := by
  obtain ⟨table, htable, haliases, hsize, huntouched, place, hmade⟩ :=
    ofProgram_makes henv.admits (.inl .intro) h
  obtain ⟨hclosed, hsound⟩ := hmade _ huntouched.madeAt
  have htable : p.store.aliases.Kinded K := haliases ▸ henv.table htable
  have hstands : ∀ t : Ty, t.Kinded K (fun v p => K.Same (place v) p) .type →
      t.Below p.store.size → t.Stands K place p.store.size .type :=
    fun t ht hlt => ht.mono fun v hv q hq => ⟨hlt v hv, hq⟩
  refine ⟨place, (huntouched.compress config.pathCompression).placed htable place, fun w hw => ?_,
    nofun⟩
  obtain rfl := List.mem_singleton.mp hw
  refine ⟨fun e he t ht => ?_, hsound.types.imp fun t ht hv => hstands t ht fun v hmem => ?_⟩
  · obtain ⟨hlt, hheader⟩ := hclosed e he
    obtain ⟨hkinded, hvars⟩ := hheader t ht
    exact hstands _ hkinded fun v hv => (hlt v (hvars v hv)).trans_le hsize
  · exact ((hsound.mentions v (hv v hmem)).resolve_left id).2

end TypeSolver
