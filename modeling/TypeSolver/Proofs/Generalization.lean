import Mathlib
import TypeSolver.Proofs.Generated
import TypeSolver.Proofs.Layers

/-!
# TypeSolver.Proofs.Generalization

Programs and environments without records and aliases make first-order stores, and their runs start
`Layered`. Hence generalization is sound: what a group is quantified over stays as it is, and
nothing that was made outside the group leads to it (`quantifiers_untouched`).
-/

namespace TypeSolver

open Store

mutual

def Signature.plain : Signature → Bool
  | .var _ => true
  | .con _ args => plainSignatures args
  | .func arg ret => arg.plain && ret.plain
  | .record _ _ => false

def plainSignatures : List Signature → Bool
  | [] => true
  | t :: ts => t.plain && plainSignatures ts

end

/-- There are no aliases, and no record type occurs. -/
def Environment.plain (env : Environment) : Bool :=
  env.aliases.isEmpty && env.constructors.all (fun e => plainSignatures e.2.args) &&
    env.values.all fun e => e.2.plain

theorem plainSignatures_iff {ts : List Signature} :
    plainSignatures ts = true ↔ ∀ t ∈ ts, t.plain = true := by
  induction ts with
  | nil => simp [plainSignatures]
  | cons t ts ih => simp [plainSignatures, ih]

namespace Signature

theorem firstOrder_of_plain {sig : Signature} (h : sig.plain = true) {σ : List (String × Ty)}
    (hσ : ∀ x u, Assoc.get? σ x = some u → u.FirstOrder []) {t : Ty} (ht : sig.toTy σ = .ok t) :
    t.FirstOrder [] := by
  induction sig generalizing t with
  | var name => exact hσ name t (toTy_var.mp ht)
  | con name args ih =>
    rw [plain, plainSignatures_iff] at h
    obtain ⟨ts, hts, rfl⟩ := toTy_con.mp ht
    refine .app rfl fun u hu => ?_
    obtain ⟨a, ha, hau⟩ := exists_of_forall₂_right hts hu
    exact ih a ha (h a ha) hau
  | func arg ret iha ihr =>
    rw [plain, Bool.and_eq_true] at h
    obtain ⟨a, r, ha, hr, rfl⟩ := toTy_func.mp ht
    exact .func (iha h.1 ha) (ihr h.2 hr)
  | record => cases h

theorem plain_curried {args : List Signature} {ret : Signature}
    (hargs : plainSignatures args = true) (hret : ret.plain = true) :
    (curried args ret).plain = true := by
  induction args with
  | nil => exact hret
  | cons a args ih =>
    rw [plainSignatures, Bool.and_eq_true] at hargs
    show (Signature.func a (curried args ret)).plain = true
    rw [plain, hargs.1, ih hargs.2]
    rfl

end Signature

namespace Environment

variable {env : Environment}

theorem plain_of_offers (h : env.plain = true) {sig : Signature} (hsig : env.Offers sig) :
    sig.plain = true := by
  simp only [plain, Bool.and_eq_true, List.all_eq_true] at h
  obtain ⟨⟨_, hctors⟩, hvalues⟩ := h
  rcases hsig with ⟨name, c, hmem, rfl⟩ | ⟨name, hmem⟩
  · refine Signature.plain_curried (hctors _ hmem) ?_
    rw [Constructor.resultSignature, Signature.plain, plainSignatures_iff]
    intro t ht
    obtain ⟨x, _, rfl⟩ := List.mem_map.mp ht
    rfl
  · exact hvalues _ hmem

theorem aliasTable_of_plain (h : env.plain = true) : env.aliasTable = .ok [] := by
  simp only [plain, Bool.and_eq_true, List.isEmpty_iff] at h
  rw [aliasTable, h.1.1]
  rfl

theorem admits_of_plain (h : env.plain = true) :
    Admits env False fun _ t => t.FirstOrder [] where
  var _ := .var
  func := Ty.FirstOrder.func_iff
  literal l := by cases l <;> exact .app rfl nofun
  list ht := .app rfl fun a ha => by obtain rfl := List.mem_singleton.mp ha; exact ht
  record h := h.elim
  signature hsig := ⟨fun _ => .type, fun _ _ _ hσ ht =>
    Signature.firstOrder_of_plain (plain_of_offers h hsig)
      (fun x u hu => by obtain ⟨v, rfl, _⟩ := hσ x u hu; exact .var) ht⟩

end Environment

def Store.ranks (s : Store) (v : Var) : Rank := (s.rank? v).getD 0

namespace Store.Untouched

variable {s : Store}

variable (h : s.Untouched)

include h

theorem compress (b : Bool) : { s with compress := b }.Untouched :=
  ⟨⟨h.forest.ends, h.forest.inside⟩, h.root, h.free⟩

theorem not_bound (v : Var) (t : Ty) : s.kind v ≠ .bound t := fun hk => by
  have hfree := h.free v (lt_of_kind (by rw [hk]; simp))
  rw [hk] at hfree
  cases hfree

theorem reaches_iff {v r : Var} : s.Reaches v r ↔ r = v := by
  refine ⟨fun hr => ?_, fun heq => ?_⟩
  · rw [hr.eq_root (h.not_bound _), h.root]
  · rw [Reaches, h.root, heq]

theorem isolated {v : Var} (hv : v < s.size) : s.Isolated v :=
  ⟨h.root v, h.free v hv, fun _ hr => (h.reaches_iff.mp hr).symm⟩

theorem madeAt : s.MadeAt s.ranks := fun v hv => by
  obtain ⟨k, hk⟩ := kind_eq_free_iff_rank?.mp (h.free v hv)
  rw [ranks, hk]
  rfl

theorem sunk : s.Sunk s.ranks := fun v r k _ hr hk => by
  obtain rfl := h.reaches_iff.mp hr
  rw [ranks, hk]
  exact le_rfl

theorem formed : s.Formed := ⟨h.forest, fun v t hk => absurd hk (h.not_bound v t)⟩

theorem firstOrder (hu : s.aliases.Usable) : s.FirstOrder := by
  refine ⟨⟨⟨h.formed, hu⟩, ⟨fun v => .intro v ?_⟩,
    fun v hv => by rw [h.free v hv]; simp⟩, fun v t hk => absurd hk (h.not_bound v t)⟩
  rintro w ⟨t, hk, _⟩
  exact absurd hk (h.not_bound v t)

end Store.Untouched

namespace Prepared

/-- The first moment of the run that solves the constraint of a program. -/
def start (p : Prepared) (config : Config) : Moment where
  work := [.solve p.context p.constraint]
  state := .ofStore { p.store with compress := config.pathCompression } config.maxErrors
  madeAt := p.store.ranks

variable {program : Program} {env : Environment} {p : Prepared}

/-- A program, made ready to be solved, and the moment of its run after `n` steps. -/
def afterSteps (fuel n : Nat) (program : Program) (env : Environment) :
    Option (Prepared × Moment) :=
  match ofProgram program env with
  | .ok p => ((p.start {}).after fuel n).map (p, ·)
  | .error _ => none

theorem steps_of_afterSteps {fuel n : Nat} {m : Moment}
    (h : afterSteps fuel n program env = some (p, m)) :
    ofProgram program env = .ok p ∧ Moment.Steps fuel (p.start {}) m := by
  rw [afterSteps] at h
  split at h
  · rename_i p' hp
    obtain ⟨m', hafter, heq⟩ := Option.map_eq_some_iff.mp h
    cases heq
    exact ⟨hp, Moment.steps_of_after hafter⟩
  · cases h

theorem tiered_start {records : Prop} {P : (Var → Place) → Ty → Prop}
    (hadmits : Admits env records P) (hplain : records ∨ program.plain = true)
    (h : ofProgram program env = .ok p) (config : Config) :
    ∃ place, (p.start config).Tiered (P place) p.store.ranks p.store.size := by
  obtain ⟨_, _, _, hsize, huntouched, place, hmade⟩ := ofProgram_makes hadmits hplain h
  obtain ⟨hclosed, hsound⟩ := hmade _ huntouched.madeAt
  have hs := huntouched.compress config.pathCompression
  have hrange : ∀ v, p.constraint.Mentions v → p.initialSize ≤ v ∧ v < p.store.size :=
    fun v hv => (hsound.mentions v hv).resolve_left id
  have hbefore : ∀ e ∈ p.context, ∀ q ∈ e.2.quantifiers, ¬ p.constraint.Mentions q :=
    fun e he q hq hmen => absurd (hrange q hmen).1 ((hclosed e he).1 q hq).not_ge
  refine ⟨place, hs.formed, le_rfl, fun _ _ => rfl, ⟨fun L hL => ?_,
    List.pairwise_singleton ..⟩, hs.sunk, fun L hL v hv => ?_, fun L hL e he => ?_⟩
  · obtain rfl := List.mem_singleton.mp hL
    refine ⟨hsound.inScope, hsound.types, nofun, nofun, fun v hv => ?_⟩
    exact (hrange v (hv.resolve_left (by simp))).2
  · obtain rfl := List.mem_singleton.mp hL
    exact hs.isolated (hrange v hv.1).2
  · obtain rfl := List.mem_singleton.mp hL
    obtain ⟨hlt, hheader⟩ := hclosed e he
    refine ⟨fun t ht => (hheader t ht).1, fun t ht v hv => ?_, fun t ht v hv L hL henc => ?_,
      fun t ht v hv r k hr _ => ?_, fun q hq => ⟨hs.root q, ?_, fun L hL v hv hr => ?_,
      fun L hL e' he' t ht v hv hr => ?_⟩⟩
    · exact (hlt v ((hheader t ht).2 v hv)).trans_le hsize
    · obtain rfl := List.mem_singleton.mp hL
      exact hbefore e he v ((hheader t ht).2 v hv) henc.1
    · obtain rfl := hs.reaches_iff.mp hr
      exact .inl ((hheader t ht).2 r hv)
    · exact hs.free q ((hlt q hq).trans_le hsize)
    · obtain rfl := List.mem_singleton.mp hL
      obtain rfl := hs.reaches_iff.mp hr
      exact hbefore e he q hq (hv.resolve_left (by simp))
    · obtain rfl := List.mem_singleton.mp hL
      obtain rfl := hs.reaches_iff.mp hr
      exact ((hclosed e' he').2 t ht).2 q hv

theorem layered_start (hprogram : program.plain = true) (henv : env.plain = true)
    (h : ofProgram program env = .ok p) (config : Config) :
    (p.start config).Layered p.store.ranks p.store.size := by
  have hadmits := Environment.admits_of_plain henv
  obtain ⟨table, htable, haliases, _, huntouched, _⟩ := ofProgram_makes hadmits (.inr hprogram) h
  rw [Environment.aliasTable_of_plain henv] at htable
  cases htable
  have husable : p.store.aliases.Usable := by
    rw [haliases]
    refine @Environment.aliasTable_usable {} [] ?_ rfl
    exact fun e he => absurd he List.not_mem_nil
  obtain ⟨_, htiered⟩ := tiered_start hadmits (.inr hprogram) h config
  refine ⟨?_, (huntouched.compress config.pathCompression).firstOrder husable⟩
  show TypeSolver.Tiered (·.FirstOrder p.store.aliases) ..
  rwa [haliases]

end Prepared

namespace Moment

variable {fuel : Nat} {m m1 m' : Moment}

theorem Step.clear_quantifiers {made : Var → Rank} {n : Nat} {ctx : Context} {outer : Rank}
    {vars : List Var} {header : Header} {defs body : Constraint} {saved : Option Span}
    {ws : List Task} (h : Step fuel m m1) (hm : m.Layered made n)
    (hwork : m.work = .leave ctx outer vars header defs body saved :: ws) {q : Var}
    (hq : q ∈ (m.state.schemeAt outer vars header defs).quantifiers) :
    Clear m1.layers m1.state.store q ∧ ∃ k, m1.state.store.rank? q = some k ∧ outer < k := by
  obtain ⟨work, st, madeAt⟩ := m
  cases hwork
  cases h
  have hlt : ∀ e ∈ header, ∀ v ∈ e.2.vars, v < st.store.size := fun e he v hv =>
    Nat.lt_of_lt_of_le ((hm.stacked.orderly _ (.head _)).lt v (.inl ⟨e, he, hv⟩))
      hm.size_le
  have hl := hm.firstOrder.forest.linksEnd
  have hgen := generalize_fst hl header outer
  have hrelinked := generalize_relinked hl header outer
  have hsplit : Layer.Splits st.store ⟨outer, ctx, header, body⟩
      [⟨outer, Solver.bindNames ctx header (st.schemeAt outer vars header defs), [], body⟩] :=
    .leave rfl hgen
  have hmem : q ∈ st.store.generalizable header outer := hgen ▸ hq
  have hclear := (hm.clear_of_generalizable hsplit rfl rfl hmem).relinked hrelinked hl
  obtain ⟨_, k, hk, hlt⟩ := (mem_generalizable hm.firstOrder.toFormed hlt).mp hmem
  exact ⟨hclear, k, (hrelinked.rank? hl q).trans hk, hlt⟩

/-- After the boundary of a group is left, no step of a run without errors changes the
representative, the content or the rank of a variable that the group is quantified over, and no
variable that was made outside the group leads to one. -/
theorem quantifiers_untouched {program : Program} {env : Environment} {p : Prepared}
    {config : Config} (hprogram : program.plain = true) (henv : env.plain = true)
    (hp : Prepared.ofProgram program env = .ok p) {ctx : Context} {outer : Rank} {vars : List Var}
    {header : Header} {defs body : Constraint} {saved : Option Span} {ws : List Task}
    (hm : Steps fuel (p.start config) m)
    (hwork : m.work = .leave ctx outer vars header defs body saved :: ws)
    (hleave : Step fuel m m1) (hrest : Steps fuel m1 m') (herr : m'.state.errors = []) :
    ∀ q ∈ (m.state.schemeAt outer vars header defs).quantifiers,
      m'.state.store.root q = m1.state.store.root q ∧
      m'.state.store.content q = m1.state.store.content q ∧
      m'.state.store.rank? q = m1.state.store.rank? q ∧
      ∀ v, v < m'.state.store.size → m'.madeAt v ≤ outer → ¬ m'.state.store.Reaches v q := by
  intro q hq
  have herr1 := hrest.errors_eq_nil herr
  have hlayered := hm.layered (Prepared.layered_start hprogram henv hp config)
    (Steps.errors_eq_nil (.single hleave) herr1)
  have hlayered1 := hleave.layered hlayered herr1
  obtain ⟨hclear, k, hk, hlt⟩ := hleave.clear_quantifiers hlayered hwork hq
  obtain ⟨hspares, _⟩ := hrest.clear hlayered1 herr hclear
  have hrank : m'.state.store.rank? q = m1.state.store.rank? q := by
    rw [rank?, hspares.content, rank?]
  refine ⟨hspares.root.trans hclear.root.symm, hspares.content, hrank, fun v hv hmade hr => ?_⟩
  have hle := (hrest.layered hlayered1 herr).sunk v q k hv hr (hrank.trans hk)
  exact absurd (hle.trans hmade) (Nat.not_le.mpr hlt)

def identity : Program where
  groups := [
    ⟨[{ name := "id", params := [⟨{}, .var "x"⟩], body := ⟨0, {}, .var "x"⟩, span := {} }]⟩,
    ⟨[{ name := "one", params := [], span := {},
        body := ⟨1, {}, .apply ⟨2, {}, .var "id"⟩ [⟨3, {}, .literal (.int 1)⟩]⟩ }]⟩]

def identityDefs : Constraint :=
  .recursive [("id", .var 0)] (.conj [.checkpoint {},
    .letIn [3] [("x", .var 3)] (.equal (.var 1) (.var 3) {}) (.instanceOf "x" (.var 2) {}),
    .equal (.var 0) (.func (.var 1) (.var 2)) {}])

def identityUse : Constraint :=
  .letIn [4] [("one", .var 4)] (.recursive [("one", .var 4)] (.conj [.checkpoint {},
    .instanceOf "id" (.func (.var 5) (.var 4)) {}, .equal (.var 5) (.app "Int" []) {}])) .trivial

def identityPrepared : Prepared where
  context := []
  constraint := .letIn [0] [("id", .var 0)] identityDefs identityUse
  nodeTypes := [(0, .var 2), (1, .var 4), (2, .func (.var 5) (.var 4)), (3, .var 5)]
  initialSize := 0
  store := { slots := #[1, 1, 1, 2, 1, 1].map fun rank => .root (.unbound rank none) }

theorem identity_prepared : Prepared.ofProgram identity {} = .ok identityPrepared := by cbv

theorem quantifiers_untouched_identity : ∃ m m1 m' : Moment,
    Steps 20 (identityPrepared.start {}) m ∧
    m.work = [.leave [] 0 [0] [("id", .var 0)] identityDefs identityUse none] ∧
    Step 20 m m1 ∧ Steps 20 m1 m' ∧ m'.work = [] ∧ m'.state.errors = [] ∧
    (m.state.schemeAt 0 [0] [("id", .var 0)] identityDefs).quantifiers = [3] ∧
    m'.state.store.root 3 = m1.state.store.root 3 ∧
    m'.state.store.content 3 = m1.state.store.content 3 ∧
    m'.state.store.rank? 3 = m1.state.store.rank? 3 ∧
    ∀ v, v < m'.state.store.size → m'.madeAt v ≤ 0 → ¬ m'.state.store.Reaches v 3 := by
  obtain ⟨m, m1, m', hstart, hwork, hleave, hend, hdone, herr, hquant⟩ : ∃ m m1 m' : Moment,
      (identityPrepared.start {}).after 20 14 = some m ∧
      m.work = [.leave [] 0 [0] [("id", .var 0)] identityDefs identityUse none] ∧
      m.next 20 = some m1 ∧ m1.after 20 14 = some m' ∧ m'.work = [] ∧ m'.state.errors = [] ∧
      (m.state.schemeAt 0 [0] [("id", .var 0)] identityDefs).quantifiers = [3] := by
    generalize hstart : Moment.after 20 14 (identityPrepared.start {}) = o
    cbv at hstart
    exact ⟨_, _, _, hstart.symm, rfl, rfl, by cbv, rfl, rfl, rfl⟩
  have hsteps := steps_of_after hstart
  have hstep := next_eq_some_iff.mp hleave
  have hsteps' := steps_of_after hend
  exact ⟨m, m1, m', hsteps, hwork, hstep, hsteps', hdone, herr, hquant,
    quantifiers_untouched rfl rfl identity_prepared hsteps hwork hstep hsteps' herr 3
      (by rw [hquant]; exact List.mem_singleton_self 3)⟩

end Moment
end TypeSolver
