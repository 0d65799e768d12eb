import Mathlib.Data.List.Permutation
import TypeSolver.Proofs.Equations

/-!
# TypeSolver.Proofs.Soundness

After a successful unification the two types are equal, if nothing went unchecked.

A store is a system of equations, and a call of the unifier that succeeds only adds to it: what
solves the store afterwards solves the store before, and what was asked for holds in it
(`Runs.sound`). Two steps are taken on trust. A bound class goes under another although it may
lead back to it, and where an extension is no row, or both extensions were bound on the way, the
rest of two records is not compared. `Guard.strict` asks that these steps do no harm.
-/

namespace TypeSolver

open Relation

/-! ## Rows -/

section Rows

open Meaning

variable {table : AliasTable} {θ : Valuation} {fs gs : List (String × Ty)}
  {ms ms' : List (String × Meaning)}

theorem mem_shared_of_get? {k : String} {a b : Ty} (ha : Assoc.get? fs k = some a)
    (hb : Assoc.get? gs k = some b) : (a, b) ∈ Assoc.shared fs gs :=
  List.mem_filterMap.mpr ⟨(k, a), Assoc.mem_of_get? ha, by simp [hb]⟩

theorem union_without_eq (hf : Assoc.Sorted fs) (hg : Assoc.Sorted gs)
    (hms : Assoc.Related (Denotes table θ) fs ms) (hms' : Assoc.Related (Denotes table θ) gs ms')
    (hshared : ∀ q ∈ Assoc.shared fs gs, Same table θ q.1 q.2) :
    Assoc.union ms (Assoc.without ms' ms) = Assoc.union ms' (Assoc.without ms ms') := by
  refine Assoc.union_without_comm (hms.sorted_iff.mp hf) (hms'.sorted_iff.mp hg) ?_
  intro k x y hx hy
  have hrelx := hms.get? k
  have hrely := hms'.get? k
  rw [hx] at hrelx
  rw [hy] at hrely
  cases ha : Assoc.get? fs k with
  | none => rw [ha] at hrelx; cases hrelx
  | some a =>
    cases hb : Assoc.get? gs k with
    | none => rw [hb] at hrely; cases hrely
    | some b =>
      rw [ha] at hrelx
      rw [hb] at hrely
      cases hrelx with
      | some hax =>
        cases hrely with
        | some hby =>
          obtain ⟨m, ham, hbm⟩ := hshared _ (mem_shared_of_get? ha hb)
          rw [hax.unique ham, hby.unique hbm]

theorem without_nil_of_related (hms : Assoc.Related (Denotes table θ) fs ms)
    (hms' : Assoc.Related (Denotes table θ) gs ms') (h : Assoc.without fs gs = []) :
    Assoc.without ms ms' = [] := by
  have hrel := hms.without hms'.keys_eq
  rw [h] at hrel
  exact List.forall₂_nil_left_iff.mp hrel

theorem related_unique (hms : Assoc.Related (Denotes table θ) fs ms)
    (hms' : Assoc.Related (Denotes table θ) fs ms') : ms = ms' :=
  (hms.mono fun _ _ h _ h' => h.unique h').unique hms'

theorem eq_of_without_nil (hf : Assoc.Sorted fs) (hg : Assoc.Sorted gs)
    (hms : Assoc.Related (Denotes table θ) fs ms) (hms' : Assoc.Related (Denotes table θ) gs ms')
    (hshared : ∀ q ∈ Assoc.shared fs gs, Same table θ q.1 q.2) (h : Assoc.without fs gs = [])
    (h' : Assoc.without gs fs = []) : ms = ms' := by
  have heq := union_without_eq hf hg hms hms' hshared
  rw [without_nil_of_related hms hms' h, without_nil_of_related hms' hms h'] at heq
  rwa [Assoc.union_nil (hms.sorted_iff.mp hf), Assoc.union_nil (hms'.sorted_iff.mp hg)] at heq

end Rows

namespace Store

variable {s : Store} {θ : Valuation}

theorem row_same (hs : s.WellFormed) (hθ : s.SolvedBy θ) {k : Nat} {fields : List (String × Ty)}
    {ext : Option Var} {row : Row} (h : s.row k fields ext = some row)
    (ht : (Ty.record fields ext).Fits s.size) (hrow : row.tail ≠ .spoiled) :
    Same s.aliases θ (.record fields ext) (rowType row) := by
  refine row_induction (motive := fun fields ext row => (Ty.record fields ext).Fits s.size →
    row.tail ≠ .spoiled → Same s.aliases θ (.record fields ext) (rowType row)) ?_ ?_
    (fun _ _ _ _ hrow => absurd rfl hrow) ?_ (fun _ _ _ _ _ _ _ _ _ hrow => absurd rfl hrow)
    h ht hrow
  · intro fields _ _
    obtain ⟨m, hm⟩ := hs.usable.exists_denotes θ (.record fields none)
    exact ⟨m, hm, hm⟩
  · intro fields v _ _ _ _ _
    obtain ⟨m, hm⟩ := hs.usable.exists_denotes θ (.record fields (some v))
    refine ⟨m, hm, ?_⟩
    obtain ⟨ms, rfl, hms⟩ := Denotes.record_iff.mp hm
    exact Denotes.record_iff.mpr ⟨ms, by simp only [Option.map_some, hθ.root], hms⟩
  · intro k fields v t more rest row hc hhead ih ht hrow
    have hk : s.kind v = .bound t := kind_eq_bound.mpr hc
    have hmore := (hs.usable.head_settled (hs.fits v t hk) hhead).1
    obtain ⟨m, hm⟩ := hs.usable.exists_denotes θ (.record fields (some v))
    refine Same.trans ⟨m, hm, ?_⟩ (ih (Ty.over_union ht hmore) hrow)
    have hv := (AliasTable.head_denotes hhead).mp (hθ.bound v t hk)
    obtain ⟨ms, rfl, hms⟩ := Denotes.record_iff.mp hm
    exact Denotes.union hθ.tidy (Ty.over_record.mp ht).1 (Ty.over_record.mp hmore).1 hms hv

/-! ## What a call asks for -/

/-- Classes do not go under others that lead to them, and where the rest of two records is not
compared, they have one snapshot already. -/
def Guard.strict : Guard where
  join s a b := ¬ s.Reaches b a
  skip s l r := ∃ k n, s.snapshot k l = some n ∧ s.snapshot k r = some n

theorem Guard.strict_untied : Guard.strict.Untied := fun _ _ _ h => h

/-- The equation that a call is to bring about. For rows it is that between the records they came
from, if the rows have the meanings of these records. -/
def Call.Holds (table : AliasTable) (θ : Valuation) : Call → Prop
  | .types l r => Same table θ l r
  | .vars v w => θ v = θ w
  | .var _ v t => Denotes table θ t (θ v)
  | .terms l r => Same table θ l r
  | .rows rowL rowR l r => (rowL.tail ≠ .spoiled → Same table θ l (rowType rowL)) →
      (rowR.tail ≠ .spoiled → Same table θ r (rowType rowR)) → Same table θ l r
  | .tails v w _ onlyLeft onlyRight => ∃ m ms ms', Meaning.Tidy m ∧
      Assoc.Related (Denotes table θ) onlyLeft ms ∧
      Assoc.Related (Denotes table θ) onlyRight ms' ∧
      θ v = Meaning.close ms' m ∧ θ w = Meaning.close ms m

structure Intact (s : Store) : Prop extends s.WellFormed where
  grounded : s.Grounded
  healthy : s.Healthy

theorem Steps.intact {s' : Store} (h : Steps .strict false s s') (hs : s.Intact) : s'.Intact :=
  ⟨h.wellFormed hs.toWellFormed,
    h.grounded Guard.strict_untied hs.toWellFormed hs.grounded,
    h.healthy hs.toWellFormed hs.healthy⟩

/-- What solves the store after a successful call solves the store before it, and the equation of
the call holds in it. -/
def Sound (c : Call) (s : Store) (o : Outcome) : Prop :=
  ∀ s', o = .unified s' → s.Intact → ∀ θ, s'.SolvedBy θ → s.SolvedBy θ ∧ c.Holds s.aliases θ

section Sound

variable {o : Outcome}

variable {s' : Store} {l r : Ty} {rowL rowR : Row}

theorem each_sound {ps : List (Ty × Ty)} (h : Each (Careful .strict Sound) ps s o)
    (ho : o = .unified s') (hs : s.Intact) : Steps .strict false s s' ∧
      ∀ θ, s'.SolvedBy θ → s.SolvedBy θ ∧ ∀ q ∈ ps, Same s.aliases θ q.1 q.2 := by
  induction h with
  | nil => cases ho; exact ⟨.refl, fun θ hθ => ⟨hθ, by simp⟩⟩
  | @cons l r ps s s1 o h _ ih =>
    have hsteps : Steps .strict false s s1 := h.after
    obtain ⟨hsteps', hrest⟩ := ih ho (hsteps.intact hs)
    refine ⟨hsteps.trans hsteps', fun θ hθ => ?_⟩
    obtain ⟨hθ1, hps⟩ := hrest θ hθ
    obtain ⟨hθ0, hlr⟩ := h.ends s1 rfl hs θ hθ1
    refine ⟨hθ0, fun q hq => ?_⟩
    rcases List.mem_cons.mp hq with rfl | hq
    · exact hlr
    · rw [← hsteps.aliases_eq]; exact hps q hq
  | failed => cases ho

theorem adopted_sound (hs : s.WellFormed) (h : Relinked s s') (t : Ty) (rank : Rank) {a b : Var}
    (ha : a < s.size) (hb : b < s.size) (hra : s.root a = a) (hrb : s.root b = b) (hab : a ≠ b)
    (hk : s.kind a = .free) (hθ : ((s'.lowerRanks (s'.reach t) rank).link a b).SolvedBy θ) :
    s.SolvedBy θ ∧ θ a = θ b := by
  obtain ⟨hf, hal'⟩ := lowerRanks_alike (h.forest hs.forest) rank (s'.reach t)
  have hal := (h.alike hs.forest.linksEnd).trans hal'
  rw [← hal.size] at ha hb
  rw [← hal.root] at hra hrb
  rw [← hal.kind] at hk
  exact ⟨hal.solvedBy.mp (solvedBy_of_link hf ha hb hra hrb hab hk hθ),
    eq_of_link hf ha hb hra hrb hab hθ⟩

theorem roots_sound {a b : Var} (h : RootsRule .strict (Careful .strict Sound) a b s o)
    (ho : o = .unified s') (hs : s.Intact) (ha : a < s.size) (hb : b < s.size) (hra : s.root a = a)
    (hrb : s.root b = b) (hθ : s'.SolvedBy θ) : s.SolvedBy θ ∧ θ a = θ b := by
  cases h with
  | same hab => cases ho; exact ⟨hθ, by rw [hab]⟩
  | poisonedLeft _ hc => exact absurd (kind_eq_poisoned.mpr hc) (hs.healthy a ha)
  | poisonedRight _ _ hc => exact absurd (kind_eq_poisoned.mpr hc) (hs.healthy b hb)
  | @merge rankA rankB hintA hintB hab hca hcb =>
    cases ho
    obtain ⟨_, hal⟩ := merge_alike hs.forest ha hb hra hrb hab (kind_eq_free.mpr ⟨_, _, hcb⟩)
      (min rankA rankB) (hintB <|> hintA)
    have hlink := hal.solvedBy.mp hθ
    exact ⟨solvedBy_of_link hs.forest ha hb hra hrb hab (kind_eq_free.mpr ⟨_, _, hca⟩) hlink,
      eq_of_link hs.forest ha hb hra hrb hab hlink⟩
  | @adoptLeft k rank hint t o hab hca hcb hadopt ho' =>
    rcases adopt_spec hs.forest.linksEnd hadopt ho' with ⟨_, m, _, rfl, _⟩ | ⟨_, s1, rfl, h1⟩
    · cases ho
    · cases ho
      exact adopted_sound hs.toWellFormed h1 t rank ha hb hra hrb hab
        (kind_eq_free.mpr ⟨_, _, hca⟩) hθ
  | @adoptRight k rank hint t o hab hca hcb hadopt ho' =>
    rcases adopt_spec hs.forest.linksEnd hadopt ho' with ⟨_, m, _, rfl, _⟩ | ⟨_, s1, rfl, h1⟩
    · cases ho
    · cases ho
      obtain ⟨hθ', heq⟩ := adopted_sound hs.toWellFormed h1 t rank hb ha hrb hra (Ne.symm hab)
        (kind_eq_free.mpr ⟨_, _, hcb⟩) hθ
      exact ⟨hθ', heq.symm⟩
  | @join l r s1 s2 s3 a' b' hab hca hcb h hfa hfb hguard =>
    cases ho
    have hsteps : Steps .strict false s s1 := h.after
    have hs1 := hsteps.intact hs
    have hle := hsteps.size_le hs.toWellFormed
    obtain ⟨rfl, rfl, hf, hal, -, ⟨ha', hb'⟩, hra', hrb'⟩ := find_both hs1.forest
      (Nat.lt_of_lt_of_le ha hle) (Nat.lt_of_lt_of_le hb hle) hfa hfb
    have hagree : ∀ θ', s1.SolvedBy θ' → s.SolvedBy θ' ∧ θ' a = θ' b := by
      intro θ' hθ'
      obtain ⟨hθ'', m, hl, hr⟩ := h.ends s1 rfl hs θ' hθ'
      refine ⟨hθ'', ?_⟩
      rw [(hθ''.bound a l (kind_eq_bound.mpr hca)).unique hl,
        (hθ''.bound b r (kind_eq_bound.mpr hcb)).unique hr]
    split at hθ
    · exact hagree θ (hal.solvedBy.mp hθ)
    · rename_i hne
      have hs3 : s3.WellFormed := ⟨hal.formed hf hs1.toFormed, by rw [hal.aliases]; exact hs1.usable⟩
      have hg3 := hal.grounded hs1.grounded
      refine hagree θ (hal.solvedBy.mp ?_)
      refine solvedBy_of_join hs3 ha' hb' hra' hrb' hne hg3
        (grounded_link hg3 hs3.toFormed ha' hb' hra' hrb' hne (hguard hne)) (fun θ' hθ' => ?_) hθ
      have hθ1 := hal.solvedBy.mp hθ'
      rw [hθ1.root, hθ1.root]
      exact (hagree θ' hθ1).2
  | joinFailed => cases ho

theorem heads_sound (h : HeadsRule (Careful .strict Sound) l r s o) (ho : o = .unified s')
    (hs : s.Intact) (hl : l.Fits s.size) (hr : r.Fits s.size)
    (hnl : ∀ f as, l = .app f as → s.aliases.expand f as = none)
    (hnr : ∀ f as, r = .app f as → s.aliases.expand f as = none) (hθ : s'.SolvedBy θ) :
    s.SolvedBy θ ∧ Same s.aliases θ l r := by
  cases h with
  | var _ h => exact h.ends s' ho hs θ hθ
  | @func a b c d _ _ h =>
    obtain ⟨hθ', hps⟩ := (each_sound h ho hs).2 θ hθ
    exact ⟨hθ', (hps (a, c) (by simp)).func (hps (b, d) (by simp))⟩
  | @app f as bs _ _ hlen h =>
    obtain ⟨hθ', hps⟩ := (each_sound h ho hs).2 θ hθ
    obtain ⟨ms, has, hbs⟩ := Same.exists_meanings hlen hps
    have hne : ∀ {as}, s.aliases.expand f as = none → ∀ t, s.aliases.expand f as ≠ some (.ok t) := by
      intro as h t ht
      rw [h] at ht
      cases ht
    exact ⟨hθ', _, (Denotes.app_iff (hne (hnl f as rfl))).mpr ⟨ms, rfl, has⟩,
      (Denotes.app_iff (hne (hnr f bs rfl))).mpr ⟨ms, rfl, hbs⟩⟩
  | record hgatherL hgatherR h =>
    obtain ⟨hrowL, hrowR, h2⟩ := gather_spec hs.forest.linksEnd hgatherL hgatherR
    obtain ⟨hθ2, hrows⟩ := h.ends s' ho (Steps.intact (h2.steps hs.forest) hs) θ hθ
    have hθ' := (h2.alike hs.forest.linksEnd).solvedBy.mp hθ2
    rw [h2.aliases] at hrows
    exact ⟨hθ', hrows (row_same hs.toWellFormed hθ' hrowL hl)
      (row_same hs.toWellFormed hθ' hrowR hr)⟩
  | clash _ h ho' =>
    obtain ⟨m, _, rfl, _⟩ := failWith_spec hs.forest.linksEnd h ho'
    cases ho

theorem unmatched_eq_none (h : unmatched rowL rowR = none)
    (ht : rowL.tail = .closed ∧ rowR.tail = .closed ∨
      ∃ v, rowL.tail = .opened v ∧ rowR.tail = .opened v) :
    Assoc.without rowL.fields rowR.fields = [] ∧ Assoc.without rowR.fields rowL.fields = [] := by
  rcases ht with ⟨hL, hR⟩ | ⟨v, hL, hR⟩
  · simpa [unmatched, hL, hR] using h
  · simpa [unmatched, hL, hR] using h

theorem denotes_opened {fs fs' : List (String × Ty)} {ms ms' : List (String × Meaning)} {v : Var}
    (hms : Assoc.Related (Denotes s.aliases θ) fs ms)
    (hms' : Assoc.Related (Denotes s.aliases θ) fs' ms')
    (hv : Denotes s.aliases θ (.record (Assoc.without fs' fs) none) (θ v)) :
    Denotes s.aliases θ (.record fs (some v))
      (.record (Assoc.union ms (Assoc.without ms' ms)) none) := by
  refine Denotes.record_iff.mpr ⟨ms, ?_, hms⟩
  obtain ⟨ms'', hv, hms''⟩ := Denotes.record_iff.mp hv
  rw [related_unique hms'' (hms'.without hms.keys_eq)] at hv
  rw [Option.map_some, hv, Option.map_none, Meaning.row, Meaning.row, Meaning.close]

theorem skip_sound (hs : s.Intact) (hl : l.Fits s.size) (hr : r.Fits s.size)
    (hskip : Guard.strict.skip s l r) (hθ : s.SolvedBy θ) : Same s.aliases θ l r := by
  obtain ⟨k, n, hln, hrn⟩ := hskip
  obtain ⟨θ0, h0⟩ := hs.grounded.exists_reading hs.toFormed hs.usable
  obtain ⟨m, hlm, hrm⟩ := h0.eq_of_snapshot hs.toFormed hs.usable hl hr hln hrn
  exact ⟨m.subst θ, hθ.denotes_subst h0 hs.grounded hs.toFormed hs.usable hl hlm,
    hθ.denotes_subst h0 hs.grounded hs.toFormed hs.usable hr hrm⟩

theorem ends_sound (h : EndsRule .strict (Careful .strict Sound) rowL rowR l r s o)
    (ho : o = .unified s') (hs : s.Intact) (hL : (rowType rowL).Fits s.size)
    (hR : (rowType rowR).Fits s.size) (hl : l.Fits s.size) (hr : r.Fits s.size)
    (hθ : s'.SolvedBy θ) :
    s.SolvedBy θ ∧ ((∀ q ∈ Assoc.shared rowL.fields rowR.fields, Same s.aliases θ q.1 q.2) →
      (Call.rows rowL rowR l r).Holds s.aliases θ) := by
  obtain ⟨hsortL, hfL, _⟩ := Ty.over_record.mp hL
  obtain ⟨hsortR, hfR, _⟩ := Ty.over_record.mp hR
  obtain ⟨ms, hms⟩ := Assoc.exists_related fun f _ => hs.usable.exists_denotes θ f.2
  obtain ⟨ms', hms'⟩ := Assoc.exists_related fun f _ => hs.usable.exists_denotes θ f.2
  have hsort := hms.sorted_iff.mp hsortL
  have hsort' := hms'.sorted_iff.mp hsortR
  have hrows : ((rowL.tail ≠ .spoiled ∧ rowR.tail ≠ .spoiled) ∧
      Same s.aliases θ (rowType rowL) (rowType rowR)) →
      (Call.rows rowL rowR l r).Holds s.aliases θ :=
    fun ⟨⟨hL, hR⟩, hsame⟩ hlL hrR => ((hlL hL).trans hsame).trans (hrR hR).symm
  cases h with
  | spoiled _ hskip =>
    cases ho
    exact ⟨hθ, fun _ _ _ => skip_sound hs hl hr hskip hθ⟩
  | taken _ _ _ hrank hskip =>
    cases ho
    have hθ' := ((restRank_spec hrank).2.alike hs.forest.linksEnd).solvedBy.mp hθ
    exact ⟨hθ', fun _ _ _ => skip_sound hs hl hr hskip hθ'⟩
  | mismatch _ h ho' => obtain ⟨m, _, rfl, _⟩ := failWith_spec hs.forest.linksEnd h ho'; cases ho
  | matched hun htail =>
    cases ho
    refine ⟨hθ, fun hshared => hrows ?_⟩
    obtain ⟨hleft, hright⟩ := unmatched_eq_none hun htail
    have heq := eq_of_without_nil hsortL hsortR hms hms' hshared hleft hright
    rcases htail with ⟨htL, htR⟩ | ⟨v, htL, htR⟩
    · refine ⟨by simp [htL, htR], .record ms none, ?_, ?_⟩
      · simp only [rowType, htL]; exact Denotes.record_iff.mpr ⟨ms, rfl, hms⟩
      · simp only [rowType, htR]; exact Denotes.record_iff.mpr ⟨ms', by rw [heq]; rfl, hms'⟩
    · refine ⟨by simp [htL, htR], .close ms (θ v), ?_, ?_⟩
      · simp only [rowType, htL]; exact Denotes.record_iff.mpr ⟨ms, rfl, hms⟩
      · simp only [rowType, htR]; exact Denotes.record_iff.mpr ⟨ms', by rw [heq]; rfl, hms'⟩
  | @openLeft v o hun htL htR h =>
    obtain ⟨hθ', hv⟩ := h.ends s' ho hs θ hθ
    refine ⟨hθ', fun hshared => hrows ⟨by simp [htL, htR], .record ms' none, ?_, ?_⟩⟩
    · have hnil : Assoc.without rowL.fields rowR.fields = [] := by
        simpa [unmatched, htL, htR] using hun
      have heq := union_without_eq hsortL hsortR hms hms' hshared
      rw [without_nil_of_related hms hms' hnil, Assoc.union_nil hsort'] at heq
      simp only [rowType, htL]
      exact heq ▸ denotes_opened hms hms' hv
    · simp only [rowType, htR]
      exact Denotes.record_iff.mpr ⟨ms', rfl, hms'⟩
  | @openRight w o hun htL htR h =>
    obtain ⟨hθ', hw⟩ := h.ends s' ho hs θ hθ
    refine ⟨hθ', fun hshared => hrows ⟨by simp [htL, htR], .record ms none, ?_, ?_⟩⟩
    · simp only [rowType, htL]
      exact Denotes.record_iff.mpr ⟨ms, rfl, hms⟩
    · have hnil : Assoc.without rowR.fields rowL.fields = [] := by
        simpa [unmatched, htL, htR] using hun
      have heq := union_without_eq hsortL hsortR hms hms' hshared
      rw [without_nil_of_related hms' hms hnil, Assoc.union_nil hsort] at heq
      simp only [rowType, htR]
      exact heq ▸ denotes_opened hms' hms hw
  | @openBoth v w rank s1 o _ htL htR hrank h =>
    have h1 := (restRank_spec hrank).2
    obtain ⟨hθ1, m, ns, ns', hm, hns, hns', hv, hw⟩ :=
      h.ends s' ho (Steps.intact (h1.steps hs.forest) hs) θ hθ
    have hθ' := (h1.alike hs.forest.linksEnd).solvedBy.mp hθ1
    rw [h1.aliases] at hns hns'
    rw [related_unique hns (hms.without hms'.keys_eq)] at hw
    rw [related_unique hns' (hms'.without hms.keys_eq)] at hv
    refine ⟨hθ', fun hshared => hrows ⟨by simp [htL, htR], .close ms (θ v), ?_, ?_⟩⟩
    · simp only [rowType, htL]; exact Denotes.record_iff.mpr ⟨ms, rfl, hms⟩
    · simp only [rowType, htR]
      refine Denotes.record_iff.mpr ⟨ms', ?_, hms'⟩
      rw [Option.map_some, Meaning.row, hv, hw, Meaning.close_close hsort (Assoc.sorted_without hsort' _) hm,
        Meaning.close_close hsort' (Assoc.sorted_without hsort _) hm,
        union_without_eq hsortL hsortR hms hms' hshared]

theorem rule_sound {c : Call} (hc : c.Fits s.size)
    (h : Rule .strict (Careful .strict Sound) c s o) : Sound c s o := by
  intro s' ho hs θ hθ
  cases h with
  | varVar h =>
    obtain ⟨hθ', heq⟩ := h.ends s' ho hs θ hθ
    refine ⟨hθ', _, .var _, ?_⟩
    rw [show θ _ = θ _ from heq]
    exact .var _
  | varLeft _ h =>
    obtain ⟨hθ', ht⟩ := h.ends s' ho hs θ hθ
    exact ⟨hθ', _, .var _, ht⟩
  | varRight _ h =>
    obtain ⟨hθ', ht⟩ := h.ends s' ho hs θ hθ
    exact ⟨hθ', _, ht, .var _⟩
  | noVar _ _ h => exact h.ends s' ho hs θ hθ
  | @vars v w a b s s1 s2 o hv hw h =>
    obtain ⟨hvs, hws⟩ := hc
    obtain ⟨rfl, rfl, hf, hal, -, ⟨ha, hb⟩, hra, hrb⟩ := find_both hs.forest hvs hws hv hw
    have hsteps : Steps .strict false s s2 := .single (.alike hf hal)
    obtain ⟨hθ', heq⟩ := roots_sound h ho (hsteps.intact hs) ha hb hra hrb hθ
    have hθ0 := hal.solvedBy.mp hθ'
    rw [hθ0.root, hθ0.root] at heq
    exact ⟨hθ0, heq⟩
  | @poisoned side v a t s s1 hv hcon =>
    obtain ⟨rfl, _, hal, hcont⟩ := find_spec hs.forest hc.1 hv
    rw [hcont, hs.forest.content_root] at hcon
    exact absurd (kind_eq_poisoned.mpr hcon) (hs.healthy v hc.1)
  | @bind side v a t k rank hint s s1 o hv hcon h ho' =>
    obtain ⟨rfl, hf, hal, _⟩ := find_spec hs.forest hc.1 hv
    rcases adopt_spec hf.linksEnd h ho' with ⟨_, m, _, rfl, _⟩ | ⟨_, s2, rfl, h2⟩
    · cases ho
    · cases ho
      obtain ⟨hf', hal2⟩ := lowerRanks_alike (h2.forest hf) rank (s2.reach t)
      have hal' := (h2.alike hf.linksEnd).trans hal2
      have hal'' := hal.trans hal'
      obtain ⟨hθ', hden⟩ := (put_solvedBy hf'
        (by rw [hal''.size]; exact hs.forest.root_lt hc.1)
        (by rw [hal''.root]; exact hs.forest.root_root v)
        (by rw [hal'.kind]; exact kind_eq_free.mpr ⟨_, _, hcon⟩)).mp hθ
      have hθ0 := hal''.solvedBy.mp hθ'
      rw [hal''.aliases, hθ0.root] at hden
      exact ⟨hθ0, hden⟩
  | @bound side v a t u s s1 o hv hcon h =>
    obtain ⟨rfl, hf, hal, _⟩ := find_spec hs.forest hc.1 hv
    cases o with
    | failed m s2 => cases ho
    | outOfFuel => cases ho
    | unified s2 =>
      cases ho
      have hsteps : Steps .strict false s s1 := .single (.alike hf hal)
      obtain ⟨hθ1, hsame⟩ := h.ends _ rfl (hsteps.intact hs) θ hθ
      have hθ0 := hal.solvedBy.mp hθ1
      have hu := hθ1.bound _ u (kind_eq_bound.mpr hcon)
      rw [hal.aliases] at hsame hu
      rw [hθ0.root] at hu
      refine ⟨hθ0, ?_⟩
      cases side with
      | left =>
        obtain ⟨m, hum, htm⟩ := hsame
        show Denotes s.aliases θ t (θ v)
        rw [← hum.unique hu]
        exact htm
      | right =>
        obtain ⟨m, htm, hum⟩ := hsame
        show Denotes s.aliases θ t (θ v)
        rw [← hum.unique hu]
        exact htm
  | stuckLeft _ h ho' =>
    obtain ⟨m, _, rfl, _⟩ := failWith_spec hs.forest.linksEnd h ho'
    cases ho
  | stuckRight _ _ h ho' =>
    obtain ⟨m, _, rfl, _⟩ := failWith_spec hs.forest.linksEnd h ho'
    cases ho
  | settled hl hr h =>
    obtain ⟨hfl, hnl⟩ := hs.usable.head_settled hc.1 hl
    obtain ⟨hfr, hnr⟩ := hs.usable.head_settled hc.2 hr
    obtain ⟨hθ', m, hlm, hrm⟩ := heads_sound h ho hs hfl hfr hnl hnr hθ
    exact ⟨hθ', m, (AliasTable.head_denotes hl).mpr hlm, (AliasTable.head_denotes hr).mpr hrm⟩
  | rows h hend =>
    obtain ⟨hL, hR, hl, hr⟩ := hc
    obtain ⟨hsteps, hsound⟩ := each_sound h rfl hs
    have hle := hsteps.size_le hs.toWellFormed
    obtain ⟨hθ1, hrows⟩ := ends_sound hend ho (hsteps.intact hs) (hL.mono hle) (hR.mono hle)
      (hl.mono hle) (hr.mono hle) hθ
    obtain ⟨hθ0, hshared⟩ := hsound θ hθ1
    rw [hsteps.aliases_eq] at hrows
    exact ⟨hθ0, hrows hshared⟩
  | rowsFailed => cases ho
  | @tails v w rest rank onlyLeft onlyRight s s1 s2 o hf h h' =>
    cases hf
    have hsteps : Steps .strict false s (s.fresh rank none).2 := .single (.fresh rank none)
    have hsteps' : Steps .strict false (s.fresh rank none).2 s2 := h.after
    have hs1 := hsteps.intact hs
    obtain ⟨hθ2, hw⟩ := h'.ends s' ho (hsteps'.intact hs1) θ hθ
    obtain ⟨hθ1, hv⟩ := h.ends s2 rfl hs1 θ hθ2
    refine ⟨solvedBy_of_fresh hs.toFormed hθ1, ?_⟩
    rw [hsteps'.aliases_eq] at hw
    obtain ⟨ms', hv, hms'⟩ := Denotes.record_iff.mp hv
    obtain ⟨ms, hw, hms⟩ := Denotes.record_iff.mp hw
    exact ⟨θ s.size, ms, ms', hθ.tidy _, hms, hms', hv, hw⟩
  | tailsFailed => cases ho

end Sound

theorem Runs.sound {n : Nat} {c : Call} {o : Outcome} (h : Runs .strict n c s o) (hs : s.Intact)
    (hc : c.Fits s.size) : Sound c s o :=
  h.rule_induction (fun _ _ _ _ hc h => rule_sound hc h) hs.toWellFormed hc

theorem History.intact {g : Guard} {P : Ty → Prop} {table : AliasTable} {compress : Bool}
    (hu : table.Usable) (h : History g P false table compress s) (hac : s.Acyclic) :
    s.Intact := by
  obtain ⟨hwf, hsteps⟩ := h.steps hu
  exact ⟨hwf, acyclic_iff.mp hac, hsteps.healthy (wellFormed_empty hu compress)
    fun v hv => absurd hv (Nat.not_lt_zero v)⟩

/-- After a successful unification both types have one snapshot, in a store that was made by
successful calls and has no circle. What is asked of the call is that no class goes under one that
leads to it, and that where the rest of two records is not compared, they have one snapshot at
that moment. -/
theorem snapshot_eq_of_unify {env : Environment} {table : AliasTable} (henv : env.Ordered)
    (htable : env.aliasTable = .ok table) {compress : Bool} {s s' : Store}
    (hs : History .any (fun _ => True) false table compress s) (hac : s.Acyclic) {l r : Ty}
    (hl : l.Fits s.size) (hr : r.Fits s.size) {n : Nat} (h : unify n l r s = .unified s')
    (hkeeps : (Call.types l r).Keeps .strict n s) :
    s'.Acyclic ∧ ∃ m, EnoughFuel fun k => s'.snapshot k l = some m ∧ s'.snapshot k r = some m := by
  have hs0 := hs.intact (Environment.aliasTable_usable henv htable) hac
  have hrun := hkeeps.runs h (by simp)
  have hsteps : Steps .strict false s s' := hrun.after hs0.toWellFormed ⟨hl, hr⟩
  have hs' := hsteps.intact hs0
  have hle := hsteps.size_le hs0.toWellFormed
  refine ⟨acyclic_iff.mpr hs'.grounded, ?_⟩
  obtain ⟨θ, hθ⟩ := hs'.grounded.exists_reading hs'.toFormed hs'.usable
  obtain ⟨_, m, hlm, hrm⟩ := hrun.sound hs0 ⟨hl, hr⟩ s' rfl hs0 θ hθ.toSolvedBy
  rw [← hsteps.aliases_eq] at hlm hrm
  exact ⟨m.named,
    (hθ.snapshot hs'.grounded hs'.toFormed hs'.usable (hl.mono hle) hlm).and
      (hθ.snapshot hs'.grounded hs'.toFormed hs'.usable (hr.mono hle) hrm)⟩

def boxed (third : Content) : Store where
  slots := #[.root (.unbound 0 none), .root (.bound (.record [("y", .var 0)] none)), .root third]
  aliases := boxes.aliases

theorem box_runs : Runs .strict 10 (.types (.app "Box" [.var 0]) (.record [] (some 1)))
    (blank boxes.aliases 3) (.unified (boxed (.unbound 0 none))) :=
  Rule.noVar rfl rfl (Rule.settled (k := 2) rfl rfl (.record (k := 3) rfl rfl (Rule.rows .nil
    (.openRight rfl rfl rfl (Rule.bind (k := 1) rfl rfl rfl Outcome.noConfusion)))))

/-- A record behind an alias closes an open record, and a variable takes up a list. -/
theorem snapshot_eq_of_unify_boxes : ∃ s', unify 12 (.func (.app "Box" [.var 0]) (.var 2))
      (.func (.record [] (some 1)) (.list (.var 0))) (blank boxes.aliases 3) = .unified s' ∧
    ∃ m, EnoughFuel fun k =>
      s'.snapshot k (.func (.app "Box" [.var 0]) (.var 2)) = some m ∧
      s'.snapshot k (.func (.record [] (some 1)) (.list (.var 0))) = some m := by
  have hfits : (Ty.func (.app "Box" [.var 0]) (.var 2)).Fits 3 ∧
      (Ty.func (.record [] (some 1)) (.list (.var 0))).Fits 3 := by
    simp [Ty.Fits, Ty.over_func, Ty.over_app, Ty.over_record, Ty.over_var, Ty.list, Assoc.Sorted,
      Assoc.keys]
  have h : unify 12 (.func (.app "Box" [.var 0]) (.var 2)) (.func (.record [] (some 1))
      (.list (.var 0))) (blank boxes.aliases 3) = .unified (boxed (.bound (.list (.var 0)))) := by
    cbv
  have hruns : Runs .strict 12 (.types (.func (.app "Box" [.var 0]) (.var 2))
      (.func (.record [] (some 1)) (.list (.var 0)))) (blank boxes.aliases 3)
      (.unified (boxed (.bound (.list (.var 0))))) :=
    Rule.noVar rfl rfl (Rule.settled (k := 1) rfl rfl (.func (.cons box_runs
      (.cons (Rule.varLeft rfl (Rule.bind (k := 1) rfl rfl rfl Outcome.noConfusion)) .nil))))
  exact ⟨_, h, (snapshot_eq_of_unify boxes_ordered boxes_aliasTable
    (history_blank boxes.aliases 3) (acyclic_blank boxes.aliases 3) hfits.1 hfits.2 h
    hruns.keeps).2⟩

/-- The fields of two open records bind both extensions, to records that differ. They are not
compared any more, and unification succeeds. -/
theorem unify_leaves_records_apart : ∃ s' m m', unify 12
      (.record [("a", .app "F" [.var 0, .var 1])] (some 0))
      (.record [("a", .app "F" [.record [("x", .var 2)] none, .record [("x", .var 3)] none])]
        (some 1)) (blank [] 4) = .unified s' ∧
    s'.snapshot 12 (.record [("a", .app "F" [.var 0, .var 1])] (some 0)) = some m ∧
    s'.snapshot 12 (.record [("a", .app "F" [.record [("x", .var 2)] none,
      .record [("x", .var 3)] none])] (some 1)) = some m' ∧
    m.text = "{ a : F { x : t2 } { x : t3 }, x : t2 }" ∧
    m'.text = "{ a : F { x : t2 } { x : t3 }, x : t3 }" := by
  generalize hrun : unify 12 _ _ (blank [] 4) = o
  cbv at hrun
  subst hrun
  refine ⟨_, _, _, rfl, rfl, rfl, ?_, ?_⟩
  · decide +kernel
  · decide +kernel

end Store
end TypeSolver
