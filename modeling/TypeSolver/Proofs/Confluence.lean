import TypeSolver.Proofs.Independence
import TypeSolver.Proofs.LeastRanks

/-!
# TypeSolver.Proofs.Confluence

The order of demands on first-order types does not matter. Solving them takes a store to one whose
solutions are those of the first store in which all demands hold (`solvedBy_iff_of_each`), and this
says nothing about an order. Stores with the same solutions differ by the names of their unbound
classes only (`FirstOrder.variant`).

Ranks are not visible in solutions. The rank of an unbound class is the least that a class leading
to it had at first (`least_of_each`); which classes lead to it is again the same in all orders.
-/

namespace TypeSolver

open Meaning

namespace Store

variable {s s' s1 s2 : Store} {θ : Valuation} {ps ps' : List (Ty × Ty)} {n : Nat}

def FirstOrderPairs (s : Store) (ps : List (Ty × Ty)) : Prop := ∀ q ∈ ps,
  (Call.types q.1 q.2).FirstOrder s.aliases ∧ (Call.types q.1 q.2).Fits s.size

theorem FirstOrder.exists_runs (hs : s.FirstOrder) (hps : s.FirstOrderPairs ps) : ∃ o n,
    (EnoughFuel fun k => Outcome.each (unify k) ps s = o) ∧ Each (Runs .any n) ps s o := by
  obtain ⟨θ, hθ⟩ := hs.exists_reading
  obtain ⟨o, ho, hfuel⟩ := exists_each (fun f' _ w' => stopsAt f' w')
    (fun w' h => absurd h (Nat.not_lt_zero w')) ps hs hθ hps (.inl (Nat.lt_succ_self _))
  have hends := each_completes ho
  obtain ⟨n, hn⟩ := hends.exists_fuel
  exact ⟨o, n, hends, (each_of_run hn hfuel).map fun _ _ _ _ _ _ _ _ => runs_of_ran⟩

theorem solvedBy_iff_of_each (h : Each (Runs .any n) ps s (.unified s')) (hs : s.FirstOrder)
    (hps : s.FirstOrderPairs ps) :
    s'.SolvedBy θ ↔ s.SolvedBy θ ∧ ∀ q ∈ ps, Same s.aliases θ q.1 q.2 := by
  generalize ho : Outcome.unified s' = o at h
  induction h with
  | nil => cases ho; simp
  | @cons l r ps s s1 o h _ ih =>
    obtain ⟨hc, hfit⟩ := hps (l, r) (by simp)
    have hfaith := h.faithful hs hc hfit
    obtain ⟨hs1, hsize, hal⟩ := hfaith.keeps s1 rfl
    rw [ih hs1 (fun q hq => by rw [hal, hsize]; exact hps q (by simp [hq])) ho, hal,
      List.forall_mem_cons, ← and_assoc]
    refine and_congr_left fun _ => ⟨fun hθ => ?_, fun hθ => ?_⟩
    · exact (h.strict hs hc hfit).sound hs.toIntact hfit s1 rfl hs.toIntact θ hθ
    · obtain ⟨_, heq, hθ1⟩ := hfaith.complete θ hθ.1 hθ.2
      cases heq
      exact hθ1
  | failed => cases ho

theorem least_of_each (h : Each (Runs .any n) ps s (.unified s')) (hs : s.FirstOrder)
    (hps : s.FirstOrderPairs ps) : ∃ θ', s'.Reading θ' ∧ s.tags.Least θ' s'.tags := by
  obtain ⟨θ, hθ⟩ := hs.exists_reading
  obtain ⟨ms, hms, hlive⟩ : ∃ ms, List.Forall₂ (Sides s.aliases θ) ps ms ∧ s.LivePairs ms := by
    clear h
    induction ps with
    | nil => exact ⟨[], .nil, by simp [LivePairs]⟩
    | cons q ps ih =>
      obtain ⟨ms, hms, hlive⟩ := ih fun q hq => hps q (by simp [hq])
      obtain ⟨w, hw, hw'⟩ := hs.exists_pair hθ (hps q (by simp)).1 (hps q (by simp)).2
      exact ⟨w :: ms, .cons hw hms, List.forall_mem_cons.mpr ⟨hw', hlive⟩⟩
  exact (each_traced Runs.traced h hs hps hθ).least hs hθ hms hlive

/-- The stores show the same types and the same ranks, where the unbound classes of the first are
called by `ρ` in the second. -/
structure Variant (ρ : Var → Var) (s s' : Store) : Prop where
  size : s'.size = s.size
  classes : Set.BijOn ρ s.openRoots s'.openRoots
  types : ∀ v, v < s.size → ∃ m : Meaning, m.Within (· ∈ s.openRoots) ∧
    EnoughFuel fun k => s.snapshot k (.var v) = some m.named ∧
      s'.snapshot k (.var v) = some (m.renamed ρ).named
  ranks : ∀ u ∈ s.openRoots, s'.rank? (ρ u) = s.rank? u

theorem tags_of_mem_openRoots {u : Var} (h : u ∈ s.openRoots) :
    ∃ c, s.tags u = some c ∧ s.rank? u = some c.rank := by
  obtain ⟨hroot, hk⟩ := mem_openRoots.mp h
  obtain ⟨k, hk⟩ := kind_eq_free_iff_rank?.mp hk
  obtain ⟨c, hc, rfl⟩ := exists_tag hroot hk
  exact ⟨c, hc, hk⟩

theorem mem_openRoots_of_mentions (hs : s.FirstOrder) (hθ : s.Reading θ) {v r : Var}
    (hv : v < s.size) (hr : (θ v).Mentions r) : r ∈ s.openRoots := by
  obtain ⟨hreach, hk⟩ := (hs.mentions_iff hθ hv).mp hr
  exact mem_openRoots.mpr ⟨hreach.root_eq hs.forest, hk⟩

section Variant

variable {θ1 θ2 : Valuation}

theorem eq_var_of_mem_openRoots (hs2 : s2.FirstOrder) (h1 : s1.Reading θ1) (h2 : s2.Reading θ2)
    (hsolved : s2.SolvedBy θ1) (hsize : s2.size = s1.size) {u : Var} (hu : u ∈ s1.openRoots) :
    s2.kind u = .free ∧ θ2 u = .var (s2.root u) := by
  obtain ⟨hroot, hk⟩ := mem_openRoots.mp hu
  have hlt : u < s2.size := by rw [hsize]; exact lt_of_kind (by rw [hk]; simp)
  have heq := hsolved.eq_subst h2 hs2.grounded hs2.toFormed hs2.usable u hlt
  rw [h1.free u hk, hroot] at heq
  have hfree : s2.kind u = .free := by
    have hplain := hs2.plain_reading h2 hlt
    cases hm : θ2 u with
    | var w => exact ((hs2.eq_var_iff h2 hlt).mp hm).1
    | func a b => rw [hm, Meaning.subst] at heq; cases heq
    | app name args => rw [hm, Meaning.subst] at heq; cases heq
    | record fields ext => rw [hm] at hplain; cases hplain
    | error => rw [hm] at hplain; cases hplain
  exact ⟨hfree, h2.free u hfree⟩

theorem FirstOrder.variant {i : Tags} (hi : ∀ v c, i v = some c → v < s1.size)
    (hs1 : s1.FirstOrder) (hs2 : s2.FirstOrder) (hsize : s2.size = s1.size) (h1 : s1.Reading θ1)
    (h2 : s2.Reading θ2) (hsame : ∀ θ, s1.SolvedBy θ ↔ s2.SolvedBy θ)
    (hleast1 : i.Least θ1 s1.tags) (hleast2 : i.Least θ2 s2.tags) :
    Variant s2.root s1 s2 := by
  have hsolved1 := (hsame θ1).mp h1.toSolvedBy
  have hsolved2 := (hsame θ2).mpr h2.toSolvedBy
  have hopen : ∀ u ∈ s1.openRoots, s2.kind u = .free ∧ θ2 u = .var (s2.root u) := fun u hu =>
    eq_var_of_mem_openRoots hs2 h1 h2 hsolved1 hsize hu
  have hback : ∀ u, u < s1.size → θ1 u = (θ2 u).subst θ1 := fun u hu =>
    hsolved1.eq_subst h2 hs2.grounded hs2.toFormed hs2.usable u (by rwa [hsize])
  have htrees : ∀ v, v < s1.size → θ2 v = (θ1 v).renamed s2.root := fun v hv => by
    rw [hsolved2.eq_subst h1 hs1.grounded hs1.toFormed hs1.usable v hv, Meaning.renamed]
    exact (hs1.plain_reading h1 hv).subst_congr fun r hr =>
      (hopen r (mem_openRoots_of_mentions hs1 h1 hv hr)).2
  have hlt : ∀ u ∈ s1.openRoots, u < s1.size := fun u hu =>
    lt_of_kind (by rw [(mem_openRoots.mp hu).2]; simp)
  have hvar : ∀ u ∈ s1.openRoots, θ1 u = .var u := fun u hu => by
    obtain ⟨hroot, hk⟩ := mem_openRoots.mp hu
    rw [h1.free u hk, hroot]
  have hmaps : ∀ u ∈ s1.openRoots, s2.root u ∈ s2.openRoots := fun u hu => mem_openRoots.mpr
    ⟨hs2.forest.root_root u, by rw [kind_root hs2.forest]; exact (hopen u hu).1⟩
  have hinj : ∀ u ∈ s1.openRoots, ∀ u' ∈ s1.openRoots, s2.root u = s2.root u' → u = u' := by
    intro u hu u' hu' heq
    have hθ : θ1 u = θ1 u' := by
      rw [hback u (hlt u hu), hback u' (hlt u' hu'), (hopen u hu).2, (hopen u' hu').2, heq]
    rw [hvar u hu, hvar u' hu'] at hθ
    exact Meaning.var.inj hθ
  refine ⟨hsize, ⟨hmaps, fun u hu u' hu' => hinj u hu u' hu', fun w hw => ?_⟩, fun v hv => ?_,
    fun u hu => ?_⟩
  · obtain ⟨hroot, hk⟩ := mem_openRoots.mp hw
    have hw1 : w < s1.size := by rw [← hsize]; exact lt_of_kind (by rw [hk]; simp)
    obtain ⟨hk1, hθ1⟩ := eq_var_of_mem_openRoots hs1 h2 h1 hsolved2 hsize.symm hw
    have hu : s1.root w ∈ s1.openRoots := mem_openRoots.mpr
      ⟨hs1.forest.root_root w, by rw [kind_root hs1.forest]; exact hk1⟩
    refine ⟨s1.root w, hu, ?_⟩
    have heq := htrees w hw1
    rw [h2.free w hk, hθ1, renamed_var, hroot] at heq
    exact (Meaning.var.inj heq).symm
  · refine ⟨θ1 v, fun r hr => mem_openRoots_of_mentions hs1 h1 hv hr, ?_⟩
    have hsnap2 := h2.snapshot hs2.grounded hs2.toFormed hs2.usable
      (Ty.over_var.mpr (by rwa [hsize])) (.var v)
    rw [htrees v hv] at hsnap2
    have hsnap1 := h1.snapshot hs1.grounded hs1.toFormed hs1.usable (Ty.over_var.mpr hv) (.var v)
    exact hsnap1.and hsnap2
  · obtain ⟨c1, hc1, hrank1⟩ := tags_of_mem_openRoots hu
    obtain ⟨c2, hc2, hrank2⟩ := tags_of_mem_openRoots (hmaps u hu)
    -- whichever class has the least rank leads to both
    have hle2 : c2.rank ≤ c1.rank := by
      obtain ⟨v, c, hv, hmen, hrank⟩ := hleast1.attained u c1 hc1
      rw [← hrank]
      refine hleast2.le v c _ c2 hv ?_ hc2
      rw [htrees v (hi v c hv)]
      exact (hs1.plain_reading h1 (hi v c hv)).mentions_renamed.mpr ⟨u, hmen, rfl⟩
    have hle1 : c1.rank ≤ c2.rank := by
      obtain ⟨v, c, hv, hmen, hrank⟩ := hleast2.attained _ c2 hc2
      rw [← hrank]
      rw [htrees v (hi v c hv), (hs1.plain_reading h1 (hi v c hv)).mentions_renamed] at hmen
      obtain ⟨x, hx, hxu⟩ := hmen
      have hxopen := mem_openRoots_of_mentions hs1 h1 (hi v c hv) hx
      obtain rfl := hinj x hxopen u hu hxu
      exact hleast1.le v c x c1 hv hx hc1
    rw [hrank1, hrank2, Nat.le_antisymm hle2 hle1]

end Variant

theorem FirstOrder.exists_each_perm (hs : s.FirstOrder) (hps : s.FirstOrderPairs ps)
    (hperm : ps.Perm ps') (h : Each (Runs .any n) ps s (.unified s')) :
    ∃ s'', EnoughFuel fun k => Outcome.each (unify k) ps' s = .unified s'' := by
  have hps' : s.FirstOrderPairs ps' := fun q hq => hps q (hperm.mem_iff.mpr hq)
  obtain ⟨hs', _, _⟩ := (each_faithful Runs.faithful h hs hps).keeps s' rfl
  obtain ⟨θ, hθ⟩ := hs'.exists_reading
  obtain ⟨hsolved, heq⟩ := (solvedBy_iff_of_each h hs hps).mp hθ.toSolvedBy
  obtain ⟨o, n', hends, hruns⟩ := hs.exists_runs hps'
  obtain ⟨s'', rfl, _⟩ := (each_faithful Runs.faithful hruns hs hps').complete θ hsolved
    fun q hq => heq q (hperm.mem_iff.mpr hq)
  exact ⟨s'', hends⟩

theorem FirstOrder.variant_of_perm (hs : s.FirstOrder) (hps : s.FirstOrderPairs ps)
    (hperm : ps.Perm ps') {n' : Nat} (h1 : Each (Runs .any n) ps s (.unified s1))
    (h2 : Each (Runs .any n') ps' s (.unified s2)) : Variant s2.root s1 s2 := by
  have hps' : s.FirstOrderPairs ps' := fun q hq => hps q (hperm.mem_iff.mpr hq)
  obtain ⟨hs1, hsize1, _⟩ := (each_faithful Runs.faithful h1 hs hps).keeps s1 rfl
  obtain ⟨hs2, hsize2, _⟩ := (each_faithful Runs.faithful h2 hs hps').keeps s2 rfl
  obtain ⟨θ1, hθ1, hleast1⟩ := least_of_each h1 hs hps
  obtain ⟨θ2, hθ2, hleast2⟩ := least_of_each h2 hs hps'
  refine hs1.variant (fun v c hv => ?_) hs2 (hsize2.trans hsize1.symm) hθ1 hθ2 (fun θ => ?_)
    hleast1 hleast2
  · rw [hsize1]
    exact lt_of_rank? (of_tags hv).2.2
  · rw [solvedBy_iff_of_each h1 hs hps, solvedBy_iff_of_each h2 hs hps']
    exact and_congr_right fun _ => forall_congr' fun q => imp_congr_left hperm.mem_iff

/-- All variables are unbound. Some may be in one class already. -/
structure AllUnbound (s : Store) : Prop where
  forest : s.Forest
  free : ∀ v, v < s.size → s.kind v = .free

namespace AllUnbound

theorem empty (table : AliasTable) (compress : Bool) :
    AllUnbound { aliases := table, compress := compress } :=
  ⟨forest_empty table compress, fun v hv => absurd hv (Nat.not_lt_zero v)⟩

theorem fresh (h : s.AllUnbound) (rank : Rank) (hint : Option String) :
    (s.fresh rank hint).2.AllUnbound := by
  obtain ⟨hf, _, hc⟩ := fresh_view h.forest rank hint
  refine ⟨hf, fun v hv => ?_⟩
  rw [fresh_size] at hv
  rw [kind, hc]
  split
  · rfl
  · rename_i hne
    exact h.free v (Nat.lt_of_le_of_ne (Nat.le_of_lt_succ hv) hne)

theorem firstOrder (h : s.AllUnbound) (hu : s.aliases.Usable) : s.FirstOrder := by
  have hbound : ∀ v t, s.kind v ≠ .bound t := fun v t hk => by
    have hv := h.free v (lt_of_kind (by rw [hk]; simp))
    rw [hk] at hv
    cases hv
  refine ⟨⟨⟨⟨h.forest, fun v t hk => absurd hk (hbound v t)⟩, hu⟩, ⟨fun v => .intro v ?_⟩,
    fun v hv => by rw [h.free v hv]; simp⟩, fun v t hk => absurd hk (hbound v t)⟩
  rintro w ⟨t, hk, _⟩
  exact absurd hk (hbound v t)

end AllUnbound

end Store

/-- The types of the demand are first-order types over the variables of the store. -/
def Demand.FirstOrder (d : Demand) (s : Store) : Prop :=
  (d.expected.FirstOrder s.aliases ∧ d.actual.FirstOrder s.aliases) ∧
    d.expected.Fits s.size ∧ d.actual.Fits s.size

def Demand.sides (d : Demand) : Ty × Ty := (d.expected, d.actual)

namespace Solver

open Store

variable {fuel : Nat} {ctx : Context} {st last : Solver} {ds ds' : List Demand}

def faults (st : Solver) : Nat := st.errors.length + st.suppressed

theorem faults_report (st : Solver) (m : Mismatch) (span : Span) :
    (st.report m span).faults = st.faults + 1 := by
  rw [report]
  split <;> simp [faults] <;> omega

theorem solveAll_demand (d : Demand) : solveAll fuel ctx ((d :: ds).map Demand.constraint) st =
    (st.equate fuel d.expected d.actual d.span).andThen fun _ st' =>
      solveAll fuel ctx (ds.map Demand.constraint) st' := by
  rw [List.map_cons, solveAll, Demand.constraint, solve]

theorem faults_le (h : solveAll fuel ctx (ds.map Demand.constraint) st = .done () last) :
    st.faults ≤ last.faults := by
  induction ds generalizing st with
  | nil => cases h; exact le_rfl
  | cons d ds ih =>
    rw [solveAll_demand, equate] at h
    cases hrun : Store.unify fuel d.expected d.actual st.store with
    | outOfFuel => rw [hrun] at h; cases h
    | unified s => rw [hrun] at h; exact (ih h :)
    | failed m s =>
      rw [hrun] at h
      have hle := ih h
      rw [faults_report] at hle
      exact Nat.le_of_succ_le hle

theorem solveAll_quiet_iff :
    solveAll fuel ctx (ds.map Demand.constraint) st = .done () last ∧ last.faults = st.faults ↔
      ∃ s, Outcome.each (Store.unify fuel) (ds.map Demand.sides) st.store = .unified s ∧
        last = { st with store := s } := by
  induction ds generalizing st with
  | nil =>
    constructor
    · rintro ⟨⟨⟩, _⟩; exact ⟨_, rfl, rfl⟩
    · rintro ⟨_, ⟨⟩, rfl⟩; exact ⟨rfl, rfl⟩
  | cons d ds ih =>
    rw [solveAll_demand, equate, List.map_cons, Demand.sides, Outcome.each]
    cases hrun : Store.unify fuel d.expected d.actual st.store with
    | outOfFuel => simp [Run.andThen, Outcome.andThen]
    | unified s => exact @ih { st with store := s }
    | failed m s =>
      constructor
      · rintro ⟨h, hfaults⟩
        have hle := faults_le h
        rw [faults_report, hfaults] at hle
        exact absurd hle (Nat.not_succ_le_self _)
      · rintro ⟨_, h, _⟩
        cases h

/-- With enough fuel, the demands are met in this order and no error is recorded or left out. -/
structure Meets (st : Solver) (ctx : Context) (ds : List Demand) (last : Solver) : Prop where
  ends : EnoughFuel fun k => solve k ctx (.conj (ds.map Demand.constraint)) st = .done () last
  errors : last.errors = st.errors
  suppressed : last.suppressed = st.suppressed

theorem each_of_solve (h : solve fuel ctx (.conj (ds.map Demand.constraint)) st = .done () last)
    (herrors : last.errors = st.errors) (hsuppressed : last.suppressed = st.suppressed) :
    ∃ s, Outcome.each (Store.unify fuel) (ds.map Demand.sides) st.store = .unified s ∧
      last = { st with store := s } := by
  obtain ⟨st1, hall, rfl⟩ := Run.restore_eq_done h
  obtain ⟨s, hs, rfl⟩ := solveAll_quiet_iff.mp
    ⟨hall, by rw [faults, faults, show st1.errors = st.errors from herrors,
      show st1.suppressed = st.suppressed from hsuppressed]⟩
  exact ⟨s, hs, rfl⟩

theorem meets_of_each {s : Store} (h : EnoughFuel fun k =>
      Outcome.each (Store.unify k) (ds.map Demand.sides) st.store = .unified s) :
    st.Meets ctx ds { st with store := s } := by
  refine ⟨h.mono fun k hk => ?_, rfl, rfl⟩
  rw [solve, (solveAll_quiet_iff.mpr ⟨s, hk, rfl⟩).1]
  rfl

theorem meets_of_solve (h : solve fuel ctx (.conj (ds.map Demand.constraint)) st = .done () last)
    (herrors : last.errors = st.errors) (hsuppressed : last.suppressed = st.suppressed) :
    st.Meets ctx ds last := by
  obtain ⟨s, hs, rfl⟩ := each_of_solve h herrors hsuppressed
  exact meets_of_each (each_completes ((each_of_run hs (by simp)).map fun _ _ _ _ _ _ _ _ hran =>
    (runs_of_ran hran).completes))

theorem Meets.runs (h : st.Meets ctx ds last) :
    ∃ n, Each (Runs .any n) (ds.map Demand.sides) st.store (.unified last.store) := by
  obtain ⟨k, hk⟩ := h.ends.exists_fuel
  obtain ⟨s, hs, rfl⟩ := each_of_solve hk h.errors h.suppressed
  exact ⟨k, (each_of_run hs (by simp)).map fun _ _ _ _ _ _ _ _ => runs_of_ran⟩

/-- Demands on first-order types, in a store in which all variables are unbound and aliases come to
an end, are met in one order without an error if and only if they are in every other. In that case
the stores behind the two runs show the same type for each variable, up to a bijection between their
unbound classes, and classes that correspond have the same rank. -/
theorem solve_conj_perm (hfree : st.store.AllUnbound) (hu : st.store.aliases.Usable)
    (hds : ∀ d ∈ ds, d.FirstOrder st.store) (hperm : ds.Perm ds') :
    ((∃ last, st.Meets ctx ds last) ↔ ∃ last, st.Meets ctx ds' last) ∧
    ∀ last last', st.Meets ctx ds last → st.Meets ctx ds' last' →
      ∃ ρ, Variant ρ last.store last'.store := by
  have hs := hfree.firstOrder hu
  have hps : ∀ ds1 : List Demand, ds1.Perm ds →
      st.store.FirstOrderPairs (ds1.map Demand.sides) := by
    intro ds1 hperm1 q hq
    obtain ⟨d, hd, rfl⟩ := List.mem_map.mp hq
    exact hds d (hperm1.mem_iff.mp hd)
  have hmeets : ∀ ds1 ds2 : List Demand, ds1.Perm ds → ds1.Perm ds2 →
      (∃ last, st.Meets ctx ds1 last) → ∃ last, st.Meets ctx ds2 last := by
    rintro ds1 ds2 h1 h2 ⟨last, hlast⟩
    obtain ⟨n, hruns⟩ := hlast.runs
    obtain ⟨s, hends⟩ := hs.exists_each_perm (hps ds1 h1) (h2.map Demand.sides) hruns
    exact ⟨_, meets_of_each hends⟩
  refine ⟨⟨hmeets ds ds' (.refl _) hperm, hmeets ds' ds hperm.symm hperm.symm⟩,
    fun last last' h h' => ?_⟩
  obtain ⟨n, hruns⟩ := h.runs
  obtain ⟨n', hruns'⟩ := h'.runs
  exact ⟨_, hs.variant_of_perm (hps ds (.refl _)) (hperm.map Demand.sides) hruns hruns'⟩

def staggered : Solver :=
  .ofStore ([3, 1, 2, 4, 0].foldl (fun s rank => (s.fresh rank none).2)
    { aliases := boxes.aliases }) none

theorem staggered_allUnbound : staggered.store.AllUnbound :=
  (((((AllUnbound.empty _ _).fresh 3 none).fresh 1 none).fresh 2 none).fresh 4 none).fresh 0 none

/-- One variable is a function from `1` to `2`, and a function from `3` to lists of `4`. -/
def crossing : List Demand :=
  [⟨.var 0, .func (.var 1) (.var 2), .wholeLine 1⟩,
    ⟨.var 0, .func (.var 3) (.list (.var 4)), .wholeLine 2⟩]

theorem crossing_firstOrder : ∀ d ∈ crossing, d.FirstOrder staggered.store := by
  have hvar : ∀ v, v < 5 → (Ty.var v).Fits staggered.store.size := fun v hv => Ty.over_var.mpr hv
  have hlist : (Ty.list (.var 4)).Fits staggered.store.size := by
    refine Ty.over_app.mpr fun a ha => ?_
    obtain rfl := List.mem_singleton.mp ha
    exact hvar 4 (by decide)
  simp only [crossing, List.forall_mem_cons, Demand.FirstOrder]
  refine ⟨⟨⟨.var, .func .var .var⟩, hvar 0 (by decide),
    Ty.over_func.mpr ⟨hvar 1 (by decide), hvar 2 (by decide)⟩⟩,
    ⟨⟨.var, .func .var (.app rfl ?_)⟩, hvar 0 (by decide),
    Ty.over_func.mpr ⟨hvar 3 (by decide), hlist⟩⟩, by simp⟩
  simpa using Ty.FirstOrder.var

theorem solve_conj_perm_crossing : ∃ last last' ρ, staggered.Meets [] crossing last ∧
    staggered.Meets [] crossing.reverse last' ∧ Variant ρ last.store last'.store ∧
    last.store.root 1 ≠ last'.store.root 1 := by
  obtain ⟨_, hvariant⟩ := @solve_conj_perm [] staggered crossing crossing.reverse
    staggered_allUnbound (Environment.aliasTable_usable boxes_ordered boxes_aliasTable)
    crossing_firstOrder (List.reverse_perm _).symm
  have h1 : staggered.Meets [] crossing _ := @meets_of_solve 9 _ _ _ _ rfl rfl rfl
  have h2 : staggered.Meets [] crossing.reverse _ := @meets_of_solve 9 _ _ _ _ rfl rfl rfl
  obtain ⟨ρ, hρ⟩ := hvariant _ _ h1 h2
  exact ⟨_, _, ρ, h1, h2, hρ, by decide⟩

end Solver
end TypeSolver
