import TypeSolver.Proofs.Soundness

/-!
# TypeSolver.Proofs.FirstOrder

Unification of first-order types: variables, functions, and constructors that are no aliases.

On such types nothing goes unchecked. A class that leads to another has a larger meaning, so two
classes with one meaning do not lead to each other, and putting one under the other closes no
circle. The run is therefore strict, and it is also complete: a solution of the store in which the
equation of a call holds also solves the store that the call leaves, and a call fails only if there
is no such solution (`Runs.faithful`).
-/

namespace TypeSolver

/-- Variables, functions, and applications of constructors that are no aliases. -/
inductive Ty.FirstOrder (table : AliasTable) : Ty → Prop where
  | var {v : Var} : FirstOrder table (.var v)
  | func {arg ret : Ty} : FirstOrder table arg → FirstOrder table ret →
      FirstOrder table (.func arg ret)
  | app {name : String} {args : List Ty} : Assoc.get? table name = none →
      (∀ a ∈ args, FirstOrder table a) → FirstOrder table (.app name args)

namespace Ty.FirstOrder

variable {table : AliasTable} {t : Ty}

theorem func_iff {arg ret : Ty} :
    (Ty.func arg ret).FirstOrder table ↔ arg.FirstOrder table ∧ ret.FirstOrder table :=
  ⟨fun h => by cases h with | func ha hr => exact ⟨ha, hr⟩, fun h => .func h.1 h.2⟩

variable {name : String} {args : List Ty}

theorem app_iff : (Ty.app name args).FirstOrder table ↔
    Assoc.get? table name = none ∧ ∀ a ∈ args, a.FirstOrder table :=
  ⟨fun h => by cases h with | app hn ha => exact ⟨hn, ha⟩, fun h => .app h.1 h.2⟩

theorem expand_eq_none (h : (Ty.app name args).FirstOrder table) :
    table.expand name args = none := by
  rw [AliasTable.expand, (app_iff.mp h).1]

theorem expand_ne (h : (Ty.app name args).FirstOrder table) (t : Ty) :
    table.expand name args ≠ some (.ok t) := by
  rw [h.expand_eq_none]; simp

variable (h : t.FirstOrder table)

include h

theorem fits {n : Nat} (hn : t.Below n) : t.Fits n := by
  induction h with
  | var => exact Ty.over_var.mpr (hn _ (by simp))
  | func _ _ iha ihr =>
    exact Ty.over_func.mpr ⟨iha fun v hv => hn v (by simp [hv]), ihr fun v hv => hn v (by simp [hv])⟩
  | app _ _ ih =>
    exact Ty.over_app.mpr fun a ha => ih a ha fun v hv => hn v (Ty.mem_vars_app.mpr ⟨a, ha, hv⟩)

theorem head_eq (k : Nat) : table.head (k + 1) t = some (.settled t) := by
  cases t with
  | app name args => rw [AliasTable.head, h.expand_eq_none]
  | _ => rfl

theorem eq_of_head {k : Nat} {hd : AliasTable.Head} (hhead : table.head k t = some hd) :
    hd = .settled t := by
  cases k with
  | zero => cases hhead
  | succ k => rw [h.head_eq k] at hhead; cases hhead; rfl

theorem sizeOf_vars {θ : Valuation} {m : Meaning} (hm : Denotes table θ t m) {w : Var}
    (hw : w ∈ t.vars) : sizeOf (θ w) ≤ sizeOf m ∧ (t.isVar = false → sizeOf (θ w) < sizeOf m) := by
  induction h generalizing m with
  | var =>
    obtain rfl := Ty.mem_vars_var.mp hw
    rw [Denotes.var_iff.mp hm]
    exact ⟨le_rfl, by simp [isVar]⟩
  | func ha hr iha ihr =>
    obtain ⟨a, r, rfl, hma, hmr⟩ := Denotes.func_iff.mp hm
    rcases Ty.mem_vars_func.mp hw with hw | hw
    · have := (iha hma hw).1
      simp only [Meaning.func.sizeOf_spec]
      omega
    · have := (ihr hmr hw).1
      simp only [Meaning.func.sizeOf_spec]
      omega
  | @app name args hn hargs ih =>
    have happ : (Ty.app name args).FirstOrder table := .app hn hargs
    obtain ⟨ms, rfl, hms⟩ := (Denotes.app_iff happ.expand_ne).mp hm
    obtain ⟨a, ha, hw⟩ := Ty.mem_vars_app.mp hw
    obtain ⟨m, hmem, hm⟩ := exists_of_forall₂_left hms ha
    have := (ih a ha hm hw).1
    have := List.sizeOf_lt_of_mem hmem
    simp only [Meaning.app.sizeOf_spec]
    omega

end Ty.FirstOrder

namespace Store

variable {s s' : Store} {θ : Valuation}

/-- The store is intact, and bound classes stand for first-order types that are no variables. -/
structure FirstOrder (s : Store) : Prop extends s.Intact where
  terms : ∀ v t, s.kind v = .bound t → t.FirstOrder s.aliases ∧ t.isVar = false

def Call.FirstOrder (table : AliasTable) : Call → Prop
  | .types l r => l.FirstOrder table ∧ r.FirstOrder table
  | .vars _ _ => True
  | .var _ _ t => t.FirstOrder table ∧ t.isVar = false
  | .terms l r => (l.FirstOrder table ∧ l.isVar = false) ∧ r.FirstOrder table ∧ r.isVar = false
  | .rows _ _ _ _ => False
  | .tails _ _ _ _ _ => False

/-! ## Meanings grow along bindings -/

namespace FirstOrder

variable {a b r v : Var}

variable (h : s.FirstOrder)

include h

theorem sizeOf_edge (hθ : s.SolvedBy θ) (he : s.Edge v r) : sizeOf (θ r) < sizeOf (θ v) := by
  obtain ⟨t, hk, w, hw, rfl⟩ := he
  obtain ⟨ht, hnv⟩ := h.terms v t hk
  rw [hθ.root]
  exact (ht.sizeOf_vars (hθ.bound v t hk) hw).2 hnv

theorem sizeOf_reaches (hθ : s.SolvedBy θ) (hr : s.Reaches v r) :
    r = s.root v ∨ sizeOf (θ r) < sizeOf (θ v) := by
  induction hr with
  | refl => exact .inl rfl
  | tail _ he ih =>
    have hlt := h.sizeOf_edge hθ he
    rcases ih with rfl | ih
    · rw [hθ.root] at hlt; exact .inr hlt
    · exact .inr (hlt.trans ih)

/-- Classes with one meaning do not lead to each other. -/
theorem not_reaches (hθ : s.SolvedBy θ) (hb : s.root b = b) (hab : a ≠ b) (heq : θ a = θ b) :
    ¬ s.Reaches b a := by
  intro hr
  rcases h.sizeOf_reaches hθ hr with h | h
  · exact hab (h.trans hb)
  · rw [heq] at h; exact Nat.lt_irrefl _ h

theorem ne_of_mem_reach (hθ : s.SolvedBy θ) {t : Ty} (ht : t.Fits s.size)
    (hft : t.FirstOrder s.aliases) (hnv : t.isVar = false) (ha : a ∈ s.reach t)
    (hden : Denotes s.aliases θ t (θ a)) : False := by
  obtain ⟨w, hw, hr⟩ := (mem_reach h.toFormed ht).mp ha
  have hlt := (hft.sizeOf_vars hden hw).2 hnv
  rcases h.sizeOf_reaches hθ hr with rfl | hr
  · rw [hθ.root] at hlt; exact Nat.lt_irrefl _ hlt
  · exact Nat.lt_irrefl _ (hlt.trans hr)

/-! ## Steps between first-order stores -/

theorem alike (hf : s'.Forest) (ha : Alike s s') : s'.FirstOrder := by
  have hsteps : Steps .strict false s s' := .single (.alike hf ha)
  refine ⟨hsteps.intact h.toIntact, fun v t hk => ?_⟩
  rw [ha.aliases]
  exact h.terms v t (by rw [← ha.kind]; exact hk)

theorem put {t : Ty} (hr : r < s.size) (hroot : s.root r = r) (hk : s.kind r = .free)
    (ht : t.Fits s.size) (hn : r ∉ s.reach t) (hft : t.FirstOrder s.aliases)
    (hnv : t.isVar = false) : (s.put r (.bound t)).FirstOrder := by
  have hsteps : Steps .strict false s (s.put r (.bound t)) := .single (.bind hr hroot hk ht hn)
  refine ⟨hsteps.intact h.toIntact, fun v t' hk' => ?_⟩
  obtain ⟨_, _, hc⟩ := put_view h.forest hr hroot (.bound t)
  rw [kind_eq_bound, hc] at hk'
  split at hk'
  · cases hk'; exact ⟨hft, hnv⟩
  · exact h.terms v t' (kind_eq_bound.mpr hk')

theorem link (ha : a < s.size) (hb : b < s.size) (hra : s.root a = a) (hrb : s.root b = b)
    (hab : a ≠ b) (hn : ¬ s.Reaches b a) : (s.link a b).FirstOrder := by
  have hsteps : Steps .strict false s (s.link a b) := .single (.link ha hb hra hrb hab (.inl hn))
  refine ⟨hsteps.intact h.toIntact, fun v t hk => ?_⟩
  rw [link_kind h.forest ha hb hra hrb hab] at hk
  split at hk
  · exact h.terms b t hk
  · exact h.terms v t hk

end FirstOrder

/-! ## Equations between first-order types -/

section Equations

variable {table : AliasTable}

theorem same_func {a b c d : Ty} (h : Same table θ (.func a b) (.func c d)) :
    Same table θ a c ∧ Same table θ b d := by
  obtain ⟨m, hl, hr⟩ := h
  obtain ⟨x, y, rfl, ha, hb⟩ := Denotes.func_iff.mp hl
  obtain ⟨x', y', heq, hc, hd⟩ := Denotes.func_iff.mp hr
  cases heq
  exact ⟨⟨x, ha, hc⟩, ⟨y, hb, hd⟩⟩

theorem same_app {f f' : String} {as bs : List Ty} (hl : (Ty.app f as).FirstOrder table)
    (hr : (Ty.app f' bs).FirstOrder table) (h : Same table θ (.app f as) (.app f' bs)) :
    f = f' ∧ as.length = bs.length ∧ ∀ q ∈ as.zip bs, Same table θ q.1 q.2 := by
  obtain ⟨m, hlm, hrm⟩ := h
  obtain ⟨ms, rfl, hms⟩ := (Denotes.app_iff hl.expand_ne).mp hlm
  obtain ⟨ms', heq, hms'⟩ := (Denotes.app_iff hr.expand_ne).mp hrm
  cases heq
  refine ⟨rfl, hms.length_eq.trans hms'.length_eq.symm, ?_⟩
  clear hl hr hlm hrm
  induction hms generalizing bs with
  | nil => simp
  | cons hx _ ih =>
    cases hms' with
    | cons hy hms' =>
      intro q hq
      rcases List.mem_cons.mp hq with rfl | hq
      · exact ⟨_, hx, hy⟩
      · exact ih hms' q hq

/-- Types that clash have no meaning in common. -/
theorem not_same_of_clash {l r : Ty} (hl : l.FirstOrder table) (hr : r.FirstOrder table)
    (hc : clash l r = true) : ¬ Same table θ l r := by
  intro h
  have hsame := h
  obtain ⟨m, hlm, hrm⟩ := h
  cases hl with
  | var => simp [clash] at hc
  | func =>
    cases hr with
    | var => simp [clash] at hc
    | func => simp [clash] at hc
    | app hn hargs =>
      obtain ⟨_, _, rfl, _⟩ := Denotes.func_iff.mp hlm
      obtain ⟨_, heq, _⟩ := (Denotes.app_iff (Ty.FirstOrder.app hn hargs).expand_ne).mp hrm
      cases heq
  | app hn hargs =>
    cases hr with
    | var => simp [clash] at hc
    | func =>
      obtain ⟨_, _, rfl, _⟩ := Denotes.func_iff.mp hrm
      obtain ⟨_, heq, _⟩ := (Denotes.app_iff (Ty.FirstOrder.app hn hargs).expand_ne).mp hlm
      cases heq
    | app hn' hargs' =>
      obtain ⟨hf, hlen, _⟩ := same_app (.app hn hargs) (.app hn' hargs') hsame
      simp [clash, hf, hlen] at hc

end Equations

/-! ## Runs -/

/-- Two classes of a first-order store become one only if they have one meaning in all its solutions.
There are no records. -/
def Guard.exact : Guard where
  join s a b := s.FirstOrder ∧ (a ≠ b ∧ s.root a = a ∧ s.root b = b) ∧ (a < s.size ∧ b < s.size) ∧
    ∀ θ, s.SolvedBy θ → θ a = θ b
  skip _ _ _ := False

theorem Guard.exact_join {a b : Var} (h : Guard.exact.join s a b) : ¬ s.Reaches b a := by
  obtain ⟨hs, ⟨hab, _, hb⟩, _, heq⟩ := h
  obtain ⟨θ, hθ⟩ := hs.grounded.exists_reading hs.toFormed hs.usable
  exact hs.not_reaches hθ.toSolvedBy hb hab (heq θ hθ.toSolvedBy)

variable {o : Outcome} {p : Prop} {P : Valuation → Prop}

theorem Runs.strict_of_exact {n : Nat} {c : Call} (h : Runs .exact n c s o) :
    Runs .strict n c s o := h.relax (fun _ _ _ h => Guard.exact_join h) fun _ _ _ h => h.elim

/-- A part of a run that starts in `s` and ends with `o`. It keeps to the rules of an exact run,
a success leaves a first-order store, and every solution of `s` in which the equation holds is one
of the store that a success leaves; without success there is none. -/
structure Faithful (exact : Prop) (equation : Valuation → Prop) (s : Store) (o : Outcome) :
    Prop where
  exact : exact
  keeps : ∀ s', o = .unified s' → s'.FirstOrder ∧ s'.size = s.size ∧ s'.aliases = s.aliases
  complete : ∀ θ, s.SolvedBy θ → equation θ → ∃ s', o = .unified s' ∧ s'.SolvedBy θ

theorem Faithful.imp {p' : Prop} {P' : Valuation → Prop} (h : Faithful p P s o) (hp : p → p')
    (hP : ∀ θ, s.SolvedBy θ → P' θ → P θ) : Faithful p' P' s o :=
  ⟨hp h.exact, h.keeps, fun θ hθ hP' => h.complete θ hθ (hP θ hθ hP')⟩

theorem Faithful.of_alike {s1 : Store} (hal : Alike s s1) (h : Faithful p P s1 o) :
    Faithful p P s o := by
  refine ⟨h.exact, fun s' ho => ?_, fun θ hθ => h.complete θ (hal.solvedBy.mpr hθ)⟩
  obtain ⟨hs', hsize, hal'⟩ := h.keeps s' ho
  exact ⟨hs', hsize.trans hal.size, hal'.trans hal.aliases⟩

theorem adopted_faithful (hp : p) (hs : s.FirstOrder) {t : Ty} (rank : Rank) {a b : Var}
    (ha : a < s.size) (hb : b < s.size) (hra : s.root a = a) (hrb : s.root b = b) (hab : a ≠ b)
    (hk : s.kind b = .bound t) (hn : a ∉ s.reach t) : Faithful p (fun θ => θ a = θ b) s
      (.unified ((s.lowerRanks (s.reach t) rank).link a b)) := by
  obtain ⟨hf, hal⟩ := lowerRanks_reach hs.toFormed t rank
  have hnr := not_reaches_of_not_mem hs.toFormed hrb hab hk hn
  rw [← hal.reaches] at hnr
  rw [← hal.size] at ha hb
  rw [← hal.root] at hra hrb
  refine ⟨hp, ?_, fun θ hθ heq => ⟨_, rfl, ?_⟩⟩
  · rintro _ ⟨⟩
    exact ⟨(hs.alike hf hal).link ha hb hra hrb hab hnr, by rw [link_size, hal.size], hal.aliases⟩
  · exact link_solvedBy hf ha hb hra hrb hab (hal.solvedBy.mpr hθ) heq

theorem adopt_faithful (hp : p) (hs : s.FirstOrder) {t : Ty} {k : Nat} {rank : Rank} {a b : Var}
    (ha : a < s.size) (hb : b < s.size) (hra : s.root a = a) (hrb : s.root b = b) (hab : a ≠ b)
    (hk : s.kind b = .bound t) (hadopt : s.adopt k a rank t (fun s => s.link a b) = o)
    (ho : o ≠ .outOfFuel) : Faithful p (fun θ => θ a = θ b) s o := by
  have hl := hs.forest.linksEnd
  rcases adopt_spec hl hadopt ho with ⟨hocc, m, s1, rfl, h1⟩ | ⟨hn, s1, rfl, h1⟩
  · refine ⟨hp, (by rintro _ ⟨⟩), fun θ hθ heq => ?_⟩
    obtain ⟨ht, hnv⟩ := hs.terms b t hk
    refine (hs.ne_of_mem_reach hθ (hs.fits b t hk) ht hnv hocc ?_).elim
    rw [heq]
    exact hθ.bound b t hk
  · have hal := h1.alike hl
    rw [← h1.reach hl] at hn
    rw [← hal.size] at ha hb
    rw [← hal.root] at hra hrb
    rw [← hal.kind] at hk
    exact (adopted_faithful hp (hs.alike (h1.forest hs.forest) hal) rank ha hb hra hrb hab hk
      hn).of_alike hal

section Runs

variable {n : Nat} {o : Outcome}
  (ih : ∀ {c s o}, Runs .any n c s o → s.FirstOrder → c.FirstOrder s.aliases → c.Fits s.size →
    Faithful (Runs .exact n c s o) (c.Holds s.aliases) s o)

include ih

theorem each_faithful {ps : List (Ty × Ty)} (h : Each (Runs .any n) ps s o) (hs : s.FirstOrder)
    (hps : ∀ q ∈ ps, (Call.types q.1 q.2).FirstOrder s.aliases ∧ (Call.types q.1 q.2).Fits s.size) :
    Faithful (Each (Runs .exact n) ps s o) (fun θ => ∀ q ∈ ps, Same s.aliases θ q.1 q.2) s o := by
  induction h with
  | nil => exact ⟨.nil, fun s' ho => by cases ho; exact ⟨hs, rfl, rfl⟩, fun θ hθ _ => ⟨_, rfl, hθ⟩⟩
  | @cons l r ps s s1 o h _ ihps =>
    have hlr := ih h hs (hps (l, r) (by simp)).1 (hps (l, r) (by simp)).2
    obtain ⟨hs1, hsize, hal⟩ := hlr.keeps s1 rfl
    have hrest := ihps hs1 fun q hq => by rw [hal, hsize]; exact hps q (by simp [hq])
    refine ⟨.cons hlr.exact hrest.exact, fun s' ho => ?_, fun θ hθ heq => ?_⟩
    · obtain ⟨hs', hsize', hal'⟩ := hrest.keeps s' ho
      exact ⟨hs', hsize'.trans hsize, hal'.trans hal⟩
    · obtain ⟨_, hs1eq, hθ1⟩ := hlr.complete θ hθ (heq (l, r) (by simp))
      cases hs1eq
      exact hrest.complete θ hθ1 fun q hq => by rw [hal]; exact heq q (by simp [hq])
  | @failed l r ps s s1 m h =>
    have hlr := ih h hs (hps (l, r) (by simp)).1 (hps (l, r) (by simp)).2
    refine ⟨.failed hlr.exact, (by rintro _ ⟨⟩), fun θ hθ heq => ?_⟩
    obtain ⟨_, hfail, _⟩ := hlr.complete θ hθ (heq (l, r) (by simp))
    cases hfail

omit ih in
theorem firstOrder_func {table : AliasTable} {k : Nat} {a b c d : Ty}
    (hl : (Ty.func a b).FirstOrder table) (hr : (Ty.func c d).FirstOrder table)
    (hfit : (Call.terms (.func a b) (.func c d)).Fits k) : ∀ q ∈ [(a, c), (b, d)],
      (Call.types q.1 q.2).FirstOrder table ∧ (Call.types q.1 q.2).Fits k := by
  obtain ⟨ha, hb⟩ := Ty.FirstOrder.func_iff.mp hl
  obtain ⟨hc, hd⟩ := Ty.FirstOrder.func_iff.mp hr
  obtain ⟨hfa, hfb⟩ := Ty.over_func.mp hfit.1
  obtain ⟨hfc, hfd⟩ := Ty.over_func.mp hfit.2
  intro q hq
  rcases List.mem_pair.mp hq with rfl | rfl
  · exact ⟨⟨ha, hc⟩, hfa, hfc⟩
  · exact ⟨⟨hb, hd⟩, hfb, hfd⟩

omit ih in
theorem firstOrder_app {table : AliasTable} {k : Nat} {f g : String} {as bs : List Ty}
    (hl : (Ty.app f as).FirstOrder table) (hr : (Ty.app g bs).FirstOrder table)
    (hfit : (Call.terms (.app f as) (.app g bs)).Fits k) : ∀ q ∈ as.zip bs,
      (Call.types q.1 q.2).FirstOrder table ∧ (Call.types q.1 q.2).Fits k := by
  intro q hq
  obtain ⟨hq1, hq2⟩ := List.of_mem_zip hq
  exact ⟨⟨(Ty.FirstOrder.app_iff.mp hl).2 _ hq1, (Ty.FirstOrder.app_iff.mp hr).2 _ hq2⟩,
    Ty.over_app.mp hfit.1 _ hq1, Ty.over_app.mp hfit.2 _ hq2⟩

theorem heads_faithful {l r : Ty} (h : HeadsRule (Runs .any n) l r s o) (hs : s.FirstOrder)
    (hc : (Call.terms l r).FirstOrder s.aliases) (hfit : (Call.terms l r).Fits s.size) :
    Faithful (HeadsRule (Runs .exact n) l r s o) (fun θ => Same s.aliases θ l r) s o := by
  obtain ⟨⟨hl, hnl⟩, hr, hnr⟩ := hc
  cases h with
  | var hvar => rcases hvar with h | h <;> simp_all
  | func h =>
    refine (each_faithful ih h hs (firstOrder_func hl hr hfit)).imp .func ?_
    intro θ _ hsame q hq
    rcases List.mem_pair.mp hq with rfl | rfl
    · exact (same_func hsame).1
    · exact (same_func hsame).2
  | app hlen h =>
    exact (each_faithful ih h hs (firstOrder_app hl hr hfit)).imp (.app hlen)
      fun θ _ hsame => (same_app hl hr hsame).2.2
  | record => cases hl
  | clash hclash h ho =>
    obtain ⟨m, _, rfl, _⟩ := failWith_spec hs.forest.linksEnd h ho
    exact ⟨.clash hclash h ho, (by rintro _ ⟨⟩),
      fun θ _ hsame => absurd hsame (not_same_of_clash hl hr hclash)⟩

theorem roots_faithful {a b : Var} (h : RootsRule .any (Runs .any n) a b s o) (hs : s.FirstOrder)
    (ha : a < s.size) (hb : b < s.size) (hra : s.root a = a) (hrb : s.root b = b) :
    Faithful (RootsRule .exact (Runs .exact n) a b s o) (fun θ => θ a = θ b) s o := by
  cases h with
  | same hab =>
    exact ⟨.same hab, fun s' ho => by cases ho; exact ⟨hs, rfl, rfl⟩, fun θ hθ _ => ⟨_, rfl, hθ⟩⟩
  | poisonedLeft _ hc => exact absurd (kind_eq_poisoned.mpr hc) (hs.healthy a ha)
  | poisonedRight _ _ hc => exact absurd (kind_eq_poisoned.mpr hc) (hs.healthy b hb)
  | @merge rankA rankB hintA hintB hab hca hcb =>
    obtain ⟨hf, hal⟩ := merge_alike hs.forest ha hb hra hrb hab (kind_eq_free.mpr ⟨_, _, hcb⟩)
      (min rankA rankB) (hintB <|> hintA)
    have hn : ¬ s.Reaches b a := not_reaches_of_kind hrb hab fun t ht => by
      rw [kind_eq_bound, hcb] at ht; cases ht
    refine ⟨.merge hab hca hcb, ?_, fun θ hθ heq => ⟨_, rfl, ?_⟩⟩
    · rintro _ ⟨⟩
      exact ⟨(hs.link ha hb hra hrb hab hn).alike hf hal, by rw [hal.size, link_size], hal.aliases⟩
    · exact hal.solvedBy.mpr (link_solvedBy hs.forest ha hb hra hrb hab hθ heq)
  | adoptLeft hab hca hcb hadopt ho =>
    exact adopt_faithful (.adoptLeft hab hca hcb hadopt ho) hs ha hb hra hrb hab
      (kind_eq_bound.mpr hcb) hadopt ho
  | adoptRight hab hca hcb hadopt ho =>
    exact (adopt_faithful (.adoptRight hab hca hcb hadopt ho) hs hb ha hrb hra hab.symm
      (kind_eq_bound.mpr hca) hadopt ho).imp id fun θ _ heq => heq.symm
  | @join l r s1 s2 s3 a' b' hab hca hcb h hfa hfb _ =>
    have hka : s.kind a = .bound l := kind_eq_bound.mpr hca
    have hkb : s.kind b = .bound r := kind_eq_bound.mpr hcb
    have hfits : (Call.terms l r).Fits s.size := ⟨hs.fits a l hka, hs.fits b r hkb⟩
    have hterms := ih h hs ⟨hs.terms a l hka, hs.terms b r hkb⟩ hfits
    obtain ⟨hs1, hsize, hals⟩ := hterms.keeps s1 rfl
    rw [← hsize] at ha hb
    obtain ⟨rfl, rfl, hf3, hal, -, ⟨ha', hb'⟩, hra', hrb'⟩ := find_both hs1.forest ha hb hfa hfb
    have hs3 := hs1.alike hf3 hal
    have heq' : ∀ θ, s3.SolvedBy θ → θ a = θ b → θ (s1.root a) = θ (s1.root b) := by
      intro θ hθ heq
      rw [(hal.solvedBy.mp hθ).root, (hal.solvedBy.mp hθ).root, heq]
    have hjoin : s1.root a ≠ s1.root b → Guard.exact.join s3 (s1.root a) (s1.root b) := by
      intro hne
      refine ⟨hs3, ⟨hne, hra', hrb'⟩, ⟨ha', hb'⟩, fun θ hθ => heq' θ hθ ?_⟩
      obtain ⟨hθ0, m, hl, hr⟩ := hterms.exact.strict_of_exact.sound hs.toIntact hfits s1 rfl
        hs.toIntact θ (hal.solvedBy.mp hθ)
      rw [(hθ0.bound a l hka).unique hl, (hθ0.bound b r hkb).unique hr]
    refine ⟨.join hab hca hcb hterms.exact hfa hfb hjoin, ?_, fun θ hθ heq => ⟨_, rfl, ?_⟩⟩
    · rintro _ ⟨⟩
      split
      · exact ⟨hs3, by rw [hal.size, hsize], by rw [hal.aliases, hals]⟩
      · rename_i hne
        exact ⟨hs3.link ha' hb' hra' hrb' hne (Guard.exact_join (hjoin hne)), by rw [link_size, hal.size, hsize],
          by rw [link_aliases, hal.aliases, hals]⟩
    · obtain ⟨_, hs1eq, hθ1⟩ := hterms.complete θ hθ
        ⟨θ a, hθ.bound a l hka, by rw [heq]; exact hθ.bound b r hkb⟩
      cases hs1eq
      have hθ3 := hal.solvedBy.mpr hθ1
      split
      · exact hθ3
      · rename_i hne
        exact link_solvedBy hf3 ha' hb' hra' hrb' hne hθ3 (heq' θ hθ3 heq)
  | @joinFailed l r s1 m hab hca hcb h =>
    have hka : s.kind a = .bound l := kind_eq_bound.mpr hca
    have hkb : s.kind b = .bound r := kind_eq_bound.mpr hcb
    have hterms := ih h hs ⟨hs.terms a l hka, hs.terms b r hkb⟩ ⟨hs.fits a l hka, hs.fits b r hkb⟩
    refine ⟨.joinFailed hab hca hcb hterms.exact, (by rintro _ ⟨⟩), fun θ hθ heq => ?_⟩
    obtain ⟨_, hfail, _⟩ := hterms.complete θ hθ
      ⟨θ a, hθ.bound a l hka, by rw [heq]; exact hθ.bound b r hkb⟩
    cases hfail

variable {c : Call}

theorem rule_faithful (h : Rule .any (Runs .any n) c s o) (hs : s.FirstOrder)
    (hc : c.FirstOrder s.aliases) (hfit : c.Fits s.size) :
    Faithful (Rule .exact (Runs .exact n) c s o) (c.Holds s.aliases) s o := by
  cases h with
  | varVar h =>
    refine (ih h hs trivial ⟨hfit.1.lt (by simp), hfit.2.lt (by simp)⟩).imp .varVar ?_
    rintro θ - ⟨m, hv, hw⟩
    exact (Denotes.var_iff.mp hv).symm.trans (Denotes.var_iff.mp hw)
  | varLeft hnv h =>
    refine (ih h hs ⟨hc.2, hnv⟩ ⟨hfit.1.lt (by simp), hfit.2⟩).imp (.varLeft hnv) ?_
    rintro θ - ⟨m, hv, ht⟩
    rw [Denotes.var_iff.mp hv] at ht
    exact ht
  | varRight hnv h =>
    refine (ih h hs ⟨hc.1, hnv⟩ ⟨hfit.2.lt (by simp), hfit.1⟩).imp (.varRight hnv) ?_
    rintro θ - ⟨m, ht, hv⟩
    rw [Denotes.var_iff.mp hv] at ht
    exact ht
  | noVar hl hr h =>
    exact (ih h hs ⟨⟨hc.1, hl⟩, hc.2, hr⟩ hfit).imp (.noVar hl hr) fun θ _ hsame => hsame
  | @vars v w a b s s1 s2 o hv hw h =>
    obtain ⟨hvs, hws⟩ := hfit
    obtain ⟨rfl, rfl, hf, hal, -, ⟨ha, hb⟩, hra, hrb⟩ := find_both hs.forest hvs hws hv hw
    have hroots := roots_faithful ih h (hs.alike hf hal) ha hb hra hrb
    refine (hroots.of_alike hal).imp (.vars hv hw) fun θ hθ heq => ?_
    rw [hθ.root, hθ.root]
    exact heq
  | @poisoned side v a t s s1 hv hcon =>
    obtain ⟨rfl, _, hal, hcont⟩ := find_spec hs.forest hfit.1 hv
    rw [hcont, hs.forest.content_root] at hcon
    exact absurd (kind_eq_poisoned.mpr hcon) (hs.healthy v hfit.1)
  | @bind side v a t k rank hint s s1 o hv hcon h ho =>
    obtain ⟨rfl, hf, hal, _⟩ := find_spec hs.forest hfit.1 hv
    have hs1 := hs.alike hf hal
    have ht : t.Fits s1.size := by rw [hal.size]; exact hfit.2
    refine Faithful.of_alike hal ?_
    rcases adopt_spec hf.linksEnd h ho with ⟨hocc, m, _, rfl, _⟩ | ⟨hocc, s2, rfl, h2⟩
    · refine ⟨.bind hv hcon h ho, (by rintro _ ⟨⟩), fun θ hθ hden => ?_⟩
      have hft : t.FirstOrder s1.aliases := by rw [hal.aliases]; exact hc.1
      refine (hs1.ne_of_mem_reach hθ ht hft hc.2 hocc ?_).elim
      rw [hal.aliases, (hal.solvedBy.mp hθ).root]
      exact hden
    · obtain ⟨hf', hal2⟩ := lowerRanks_alike (h2.forest hf) rank (s2.reach t)
      have hal' := (h2.alike hf.linksEnd).trans hal2
      have hal'' := hal.trans hal'
      have hs' := hs1.alike hf' hal'
      have hlt : s.root v < (s2.lowerRanks (s2.reach t) rank).size := by
        rw [hal''.size]; exact hs.forest.root_lt hfit.1
      have hroot : (s2.lowerRanks (s2.reach t) rank).root (s.root v) = s.root v := by
        rw [hal''.root]; exact hs.forest.root_root v
      have hfree : (s2.lowerRanks (s2.reach t) rank).kind (s.root v) = .free := by
        rw [hal'.kind]; exact kind_eq_free.mpr ⟨_, _, hcon⟩
      have ht' : t.Fits (s2.lowerRanks (s2.reach t) rank).size := by rw [hal'.size]; exact ht
      refine ⟨.bind hv hcon h ho, ?_, fun θ hθ hden => ⟨_, rfl, ?_⟩⟩
      · rintro _ ⟨⟩
        refine ⟨hs'.put hlt hroot hfree ht' ?_ ?_ hc.2, by rw [put_size, hal'.size],
          by rw [put_aliases, hal'.aliases]⟩
        · rw [mem_reach hs'.toFormed ht']
          rw [mem_reach hs1.toFormed ht] at hocc
          simpa only [hal'.reaches] using hocc
        · rw [hal''.aliases]; exact hc.1
      · refine (put_solvedBy hf' hlt hroot hfree).mpr ⟨hal'.solvedBy.mpr hθ, ?_⟩
        rw [hal''.aliases, (hal.solvedBy.mp hθ).root]
        exact hden
  | @bound side v a t u s s1 o hv hcon h =>
    obtain ⟨rfl, hf, hal, _⟩ := find_spec hs.forest hfit.1 hv
    have hs1 := hs.alike hf hal
    have hku : s1.kind (s.root v) = .bound u := kind_eq_bound.mpr hcon
    have ht : t.Fits s1.size := by rw [hal.size]; exact hfit.2
    have hft : t.FirstOrder s1.aliases ∧ t.isVar = false := by rw [hal.aliases]; exact hc
    have hterms := ih h hs1
      (by cases side <;> first | exact ⟨hs1.terms _ u hku, hft⟩ | exact ⟨hft, hs1.terms _ u hku⟩)
      (by cases side <;> first | exact ⟨hs1.fits _ u hku, ht⟩ | exact ⟨ht, hs1.fits _ u hku⟩)
    refine Faithful.of_alike hal ⟨.bound hv hcon hterms.exact, fun s' ho => ?_, fun θ hθ hden => ?_⟩
    · cases o with
      | unified s2 => cases ho; exact hterms.keeps _ rfl
      | failed => cases ho
      | outOfFuel => cases ho
    · have hu := hθ.bound _ u hku
      rw [(hal.solvedBy.mp hθ).root] at hu
      rw [← hal.aliases] at hden
      have hside : (Call.against side u t).Holds s1.aliases θ := by
        cases side with
        | left => exact ⟨θ v, hu, hden⟩
        | right => exact ⟨θ v, hden, hu⟩
      obtain ⟨s2, rfl, hθ2⟩ := hterms.complete θ hθ hside
      exact ⟨s2, rfl, hθ2⟩
  | stuckLeft hl => have heq := hc.1.1.eq_of_head hl; cases heq
  | stuckRight _ hr => have heq := hc.2.1.eq_of_head hr; cases heq
  | settled hl hr h =>
    have hl' := hc.1.1.eq_of_head hl
    have hr' := hc.2.1.eq_of_head hr
    cases hl'
    cases hr'
    exact (heads_faithful ih h hs hc hfit).imp (.settled hl hr) fun θ _ hsame => hsame
  | rows => exact hc.elim
  | rowsFailed => exact hc.elim
  | tails => exact hc.elim
  | tailsFailed => exact hc.elim

omit ih in
/-- Every run on first-order types is faithful. -/
theorem Runs.faithful (h : Runs .any n c s o) (hs : s.FirstOrder) (hc : c.FirstOrder s.aliases)
    (hfit : c.Fits s.size) : Faithful (Runs .exact n c s o) (c.Holds s.aliases) s o := by
  induction n generalizing c s o with
  | zero => cases h
  | succ n ih => exact rule_faithful (fun h => ih h) h hs hc hfit

omit ih in
/-- A run on first-order types keeps the strict guard. -/
theorem Runs.strict (h : Runs .any n c s o) (hs : s.FirstOrder) (hc : c.FirstOrder s.aliases)
    (hfit : c.Fits s.size) : Runs .strict n c s o :=
  (h.faithful hs hc hfit).exact.strict_of_exact

end Runs

end Store
end TypeSolver
