import TypeSolver.Proofs.Depths

/-!
# TypeSolver.Proofs.Exposure

What unification says about variables of which nothing was said before. When such variables are
compared with types that lie within rank `k`, they come to lie within rank `k` themselves
(`Runs.shallow`). For this, the type with the new variables must show them: an alias that ignores an
argument hides its variables (`Ty.Exposed`). The other side may have new variables too, as long as
they stand at places where it takes no row to compare them (`Ty.Spine`).
-/

namespace TypeSolver

/-! ## Types that show their variables -/

namespace Ty

/-- With all aliases expanded, the type still has its variables, apart from those in `U`. -/
inductive Exposed (table : AliasTable) (U : Var → Prop) : Ty → Prop where
  | known {t : Ty} : t.Over U → Exposed table U t
  | var {v : Var} : Exposed table U (.var v)
  | func {a b : Ty} : Exposed table U a → Exposed table U b → Exposed table U (.func a b)
  | app {name : String} {args : List Ty} : table.expand name args = none →
      (∀ a ∈ args, Exposed table U a) → Exposed table U (.app name args)
  | expanded {name : String} {args : List Ty} {t : Ty} : table.expand name args = some (.ok t) →
      (∀ v ∈ (Ty.app name args).vars, v ∈ t.vars) → Exposed table U t →
      Exposed table U (.app name args)
  | record {fields : List (String × Ty)} {ext : Option Var} :
      (∀ f ∈ fields, Exposed table U f.2) → Exposed table U (.record fields ext)

/-- Apart from types over `U`, the type has variables and functions only. -/
inductive Spine (U : Var → Prop) : Ty → Prop where
  | known {t : Ty} : t.Over U → Spine U t
  | var {v : Var} : Spine U (.var v)
  | func {a b : Ty} : Spine U a → Spine U b → Spine U (.func a b)

variable {table : AliasTable} {U U' : Var → Prop} {t : Ty}

namespace Exposed

theorem mono (h : t.Exposed table U) (hU : ∀ v, U v → U' v) : t.Exposed table U' := by
  induction h with
  | known ht => exact .known (ht.mono hU)
  | var => exact .var
  | func _ _ iha ihb => exact .func iha ihb
  | app hn _ ih => exact .app hn ih
  | expanded hn hv _ ih => exact .expanded hn hv ih
  | record _ ih => exact .record ih

theorem func_inv {a b : Ty} (h : (Ty.func a b).Exposed table U) :
    a.Exposed table U ∧ b.Exposed table U := by
  cases h with
  | known h => exact ⟨.known (over_func.mp h).1, .known (over_func.mp h).2⟩
  | func ha hb => exact ⟨ha, hb⟩

theorem app_inv {name : String} {args : List Ty} (h : (Ty.app name args).Exposed table U)
    (hn : table.expand name args = none) {a : Ty} (ha : a ∈ args) : a.Exposed table U := by
  cases h with
  | known h => exact .known (over_app.mp h a ha)
  | app _ h => exact h a ha
  | expanded h _ _ => rw [hn] at h; cases h

theorem record_inv {fields : List (String × Ty)} {ext : Option Var}
    (h : (Ty.record fields ext).Exposed table U) {f : String × Ty} (hf : f ∈ fields) :
    f.2.Exposed table U := by
  cases h with
  | known h => exact .known ((over_record.mp h).2.1 f hf)
  | record h => exact h f hf

theorem head (h : t.Exposed table U) (hu : table.Usable) {n : Nat} {u : Ty}
    (hhead : table.head n t = some (.settled u)) :
    u.Exposed table U ∧ ∀ v ∈ t.vars, U v ∨ v ∈ u.vars := by
  induction n generalizing t with
  | zero => simp [AliasTable.head] at hhead
  | succ n ih =>
    cases h with
    | known h => exact ⟨.known (hu.head_settled h hhead).1, fun v hv => .inl (h.mem hv)⟩
    | var => cases hhead; exact ⟨.var, fun v hv => .inr hv⟩
    | func ha hb => cases hhead; exact ⟨.func ha hb, fun v hv => .inr hv⟩
    | app hn h =>
      rw [AliasTable.head, hn] at hhead
      cases hhead
      exact ⟨.app hn h, fun v hv => .inr hv⟩
    | expanded hn hv h =>
      rw [AliasTable.head, hn] at hhead
      obtain ⟨hexp, hvars⟩ := ih h hhead
      exact ⟨hexp, fun v hmem => hvars v (hv v hmem)⟩
    | record h => cases hhead; exact ⟨.record h, fun v hv => .inr hv⟩

end Exposed

namespace Spine

theorem mono (h : t.Spine U) (hU : ∀ v, U v → U' v) : t.Spine U' := by
  induction h with
  | known ht => exact .known (ht.mono hU)
  | var => exact .var
  | func _ _ iha ihb => exact .func iha ihb

theorem func_inv {a b : Ty} (h : (Ty.func a b).Spine U) : a.Spine U ∧ b.Spine U := by
  cases h with
  | known h => exact ⟨.known (over_func.mp h).1, .known (over_func.mp h).2⟩
  | func ha hb => exact ⟨ha, hb⟩

theorem head (h : t.Spine U) {n : Nat} {u : Ty} (hhead : table.head n t = some (.settled u)) :
    t.Over U ∨ u = t := by
  cases h with
  | known h => exact .inl h
  | var => cases n <;> cases hhead; exact .inr rfl
  | func => cases n <;> cases hhead; exact .inr rfl

end Spine
end Ty

namespace Store

variable {s s' s'' : Store} {k : Rank} {v w : Var} {t : Ty}

/-! ## Shallow and loose variables -/

structure Shallow (s : Store) (k : Rank) (v : Var) : Prop where
  lt : v < s.size
  within : s.Within (fun _ => False) k v

/-- The variable is shallow, or nothing was said about it yet. -/
def Loose (s : Store) (k : Rank) (v : Var) : Prop := s.Shallow k v ∨ s.Isolated v

theorem Shallow.of_root_eq (h : s.Forest) (hw : s.Shallow k w) (hv : v < s.size)
    (heq : s.root v = s.root w) : s.Shallow k v :=
  ⟨hv, by rw [← within_root h, heq, within_root h]; exact hw.within⟩

theorem Shallow.root (h : s.Forest) (hv : s.Shallow k v) : s.Shallow k (s.root v) :=
  hv.of_root_eq h (h.root_lt hv.lt) (h.root_root v)

theorem Shallow.bound (h : s.Formed) (hv : s.Shallow k v) (hk : s.kind v = .bound t) :
    t.Over (s.Shallow k) := by
  have hfits := h.fits v t hk
  exact hfits.restrict fun w hw => ⟨hfits.lt hw, (hv.within.bound h hk).mem hw⟩

theorem shallow_of_bound (h : s.Forest) (hk : s.kind v = .bound t) (ht : t.Over (s.Shallow k)) :
    s.Shallow k v :=
  ⟨lt_of_kind (by rw [hk]; simp), within_of_bound h hk fun _ hw => (ht.mem hw).within⟩

variable {l r : Ty}

theorem shallow_of_skip (h : Guard.tight.skip s l r) (hl : l.Over (s.Shallow k))
    (hr : r.Fits s.size) : r.Over (s.Shallow k) := by
  refine hr.restrict fun w hw => ⟨hr.lt hw, fun x j hx hj => ?_⟩
  obtain ⟨v, hv, hvx⟩ := h x (kind_eq_free_iff_rank?.mpr ⟨j, hj⟩) ⟨w, hw, hx⟩
  exact (hl.mem hv).within x j hvx hj

theorem Loose.root (h : s.Forest) (hv : s.Loose k v) : s.Loose k (s.root v) :=
  hv.imp (fun hv => hv.root h) fun hv => by rwa [hv.root]

theorem Loose.shallow (hv : s.Loose k v) (hk : s.kind v ≠ .free) : s.Shallow k v :=
  hv.resolve_right fun hiso => hk hiso.free

theorem Loose.bound (h : s.Formed) (hv : s.Loose k v) (hk : s.kind v = .bound t) :
    t.Over (s.Shallow k) := (hv.shallow (by simp [hk])).bound h hk

theorem isolated_fresh (h : s.Formed) (rank : Rank) (hint : Option String) :
    (s.fresh rank hint).2.Isolated s.size := by
  obtain ⟨_, hro, hcon⟩ := fresh_view h.forest rank hint
  obtain ⟨hroot, _⟩ := Forest.root_of_size_le le_rfl
  refine ⟨(hro _).trans hroot, kind_eq_free.mpr ⟨rank, hint, by rw [hcon, if_pos rfl]⟩,
    fun w hw => ?_⟩
  rcases hw.cases_tail with heq | ⟨x, _, t, hk, y, hy, heq⟩
  · -- the variable is the root of `w`
    rw [hro] at heq
    rcases Nat.lt_or_ge w s.size with hlt | hge
    · exact absurd heq (Nat.ne_of_gt (h.forest.root_lt hlt))
    · rw [heq, (Forest.root_of_size_le hge).1]
  · -- no binding mentions it
    rw [kind_eq_bound, hcon] at hk
    split at hk
    · cases hk
    · have hlt := h.forest.root_lt ((h.fits x t (kind_eq_bound.mpr hk)).lt hy)
      rw [hro] at heq
      exact absurd heq (Nat.ne_of_lt hlt)

/-- From `s` to `s'` shallow variables stay shallow, and nothing was said about others without making
them shallow. -/
structure Eases (k : Rank) (s s' : Store) : Prop where
  aliases : s'.aliases = s.aliases
  shallow : ∀ {v}, s.Shallow k v → s'.Shallow k v
  loose : ∀ {v}, s.Loose k v → s'.Loose k v

namespace Eases

theorem refl (k : Rank) (s : Store) : Eases k s s := ⟨rfl, id, id⟩

theorem trans (h : Eases k s s') (h' : Eases k s' s'') : Eases k s s'' :=
  ⟨h'.aliases.trans h.aliases, fun hv => h'.shallow (h.shallow hv), fun hv => h'.loose (h.loose hv)⟩

theorem alike (h : Alike s s') (hcon : ∀ v, s'.content v = s.content v) : Eases k s s' := by
  have hshallow : ∀ {v}, s.Shallow k v → s'.Shallow k v := fun hv =>
    ⟨by rw [h.size]; exact hv.lt, (h.within hcon).mpr hv.within⟩
  refine ⟨h.aliases, hshallow, fun hv => hv.imp hshallow fun hiso => ⟨?_, ?_, fun w hw => ?_⟩⟩
  · rw [h.root]; exact hiso.root
  · rw [h.kind]; exact hiso.free
  · exact hiso.only w (h.reaches.mp hw)

theorem relinked (h : Relinked s s') (hs : s.LinksEnd) : Eases k s s' :=
  .alike (h.alike hs) (h.content hs)

theorem fresh (h : s.Formed) (rank : Rank) : Eases k s (s.fresh rank none).2 := by
  have hshallow : ∀ {v}, s.Shallow k v → (s.fresh rank none).2.Shallow k v := fun hv =>
    ⟨by rw [fresh_size]; exact Nat.lt_succ_of_lt hv.lt, within_fresh h rank none hv.lt hv.within⟩
  exact ⟨rfl, hshallow, fun hv => hv.imp hshallow fun hiso =>
    hiso.spares (.fresh h hiso.root hiso.lt rank none)⟩

theorem of_run {n : Nat} {c : Call} (h : Runs .tight n c s (.unified s')) (hs : s.WellFormed)
    (hfit : c.Fits s.size) (hc : c.Over (s'.Shallow k)) : Eases k s s' := by
  have hsteps : Steps .tight false s s' := h.after hs hfit
  have hshallow : ∀ {v}, s.Shallow k v → s'.Shallow k v := fun hv =>
    ⟨hv.lt.trans_le (hsteps.size_le hs), h.within_kept hs hfit hv.lt hv.within⟩
  refine ⟨hsteps.aliases_eq, hshallow, fun {v} hv => ?_⟩
  rcases hv with hv | hiso
  · exact .inl (hshallow hv)
  · by_cases hv : s'.Shallow k v
    · exact .inl hv
    · refine .inr (hiso.spares (h.spares hs hfit v hiso.lt hiso.root (hc.mono fun w hw hr => ?_)))
      exact hv (hiso.only w hr ▸ hw)

theorem over_shallow (h : Eases k s s') (ht : t.Over (s.Shallow k)) : t.Over (s'.Shallow k) :=
  ht.mono fun _ => h.shallow

theorem over_loose (h : Eases k s s') (ht : t.Over (s.Loose k)) : t.Over (s'.Loose k) :=
  ht.mono fun _ => h.loose

theorem exposed (h : Eases k s s') (ht : t.Exposed s.aliases (s.Shallow k)) :
    t.Exposed s'.aliases (s'.Shallow k) := by
  rw [h.aliases]
  exact ht.mono fun _ => h.shallow

end Eases

theorem over_loose_of_shallow (ht : t.Over (s.Shallow k)) : t.Over (s.Loose k) :=
  ht.mono fun _ => .inl

/-! ## Calls that tie loose variables -/

/-- A type over loose variables that shows them. -/
structure Shows (s : Store) (k : Rank) (t : Ty) : Prop where
  exposed : t.Exposed s.aliases (s.Shallow k)
  loose : t.Over (s.Loose k)

/-- A type over loose variables of which it takes no row to compare them. -/
structure Lines (s : Store) (k : Rank) (t : Ty) : Prop where
  spine : t.Spine (s.Shallow k)
  loose : t.Over (s.Loose k)

theorem Shows.of_shallow (ht : t.Over (s.Shallow k)) : s.Shows k t :=
  ⟨.known ht, over_loose_of_shallow ht⟩

theorem Eases.shows (h : Eases k s s') (ht : s.Shows k t) : s'.Shows k t :=
  ⟨h.exposed ht.exposed, h.over_loose ht.loose⟩

theorem Eases.lines (h : Eases k s s') (ht : s.Lines k t) : s'.Lines k t :=
  ⟨ht.spine.mono fun _ => h.shallow, h.over_loose ht.loose⟩

/-- Of two types, the first is shallow and the second shows its variables, or the second is shallow
and it takes no row to compare the variables of the first. -/
def Ties (s : Store) (k : Rank) (l r : Ty) : Prop :=
  l.Over (s.Shallow k) ∧ s.Shows k r ∨ s.Lines k l ∧ r.Over (s.Shallow k)

theorem Eases.ties (h : Eases k s s') (hlr : s.Ties k l r) : s'.Ties k l r :=
  hlr.imp (fun hlr => ⟨h.over_shallow hlr.1, h.shows hlr.2⟩) fun hlr =>
    ⟨h.lines hlr.1, h.over_shallow hlr.2⟩

/-- The call compares something shallow with something loose. A record is only compared when it is
the second that is loose. -/
def Call.Ties (s : Store) (k : Rank) : Call → Prop
  | .types l r => s.Ties k l r
  | .vars v w => s.Shallow k v ∧ s.Loose k w ∨ s.Loose k v ∧ s.Shallow k w
  | .var .left v t => s.Shallow k v ∧ s.Shows k t ∨ s.Loose k v ∧ t.Over (s.Shallow k)
  | .var .right v t => s.Shallow k v ∧ s.Lines k t ∨ s.Loose k v ∧ t.Over (s.Shallow k)
  | .terms l r => s.Ties k l r
  | .rows rowL rowR l r => (rowType rowL).Over (s.Shallow k) ∧ s.Shows k (rowType rowR) ∧
      l.Over (s.Shallow k) ∧
      ∀ v ∈ r.vars, s.Shallow k v ∨ ∃ w ∈ (rowType rowR).vars, s.root v = s.root w
  | .tails v w _ onlyLeft onlyRight => s.Shallow k v ∧ s.Loose k w ∧
      (Ty.record onlyLeft none).Over (s.Shallow k) ∧ s.Shows k (.record onlyRight none)

def Call.subject : Call → Call
  | .rows _ _ l r => .types l r
  | c => c

def Tying (k : Rank) (c : Call) (s : Store) (o : Outcome) : Prop :=
  ∀ n s', o = .unified s' → Runs .tight n c s (.unified s') → s.Healthy → c.Ties s k →
    c.subject.Over (s'.Shallow k)

def Tried (k : Rank) (c : Call) (s : Store) (o : Outcome) : Prop :=
  (∃ n, Runs .tight n c s o) ∧ Tying k c s o

section Tying

variable {c : Call} {o : Outcome}

section

variable (h : Careful .tight (Tried k) c s (.unified s'))

include h

theorem shown_of_tried (hh : s.Healthy) (hc : c.Ties s k) : c.subject.Over (s'.Shallow k) := by
  obtain ⟨⟨n, hrun⟩, htying⟩ := h.ends
  exact htying n s' rfl hrun hh hc

theorem eases_of_tried (hc : c.Over (s'.Shallow k)) : Eases k s s' := by
  obtain ⟨n, hrun⟩ := h.ends.1
  exact .of_run hrun h.wellFormed h.fits hc

theorem healthy_of_tried (hh : s.Healthy) : s'.Healthy := by
  have hsteps : Steps .tight false s s' := h.after
  exact hsteps.healthy h.wellFormed hh

end

theorem each_shown {ps : List (Ty × Ty)} (h : Each (Careful .tight (Tried k)) ps s o)
    (ho : o = .unified s') (hh : s.Healthy) (hps : ∀ p ∈ ps, s.Ties k p.1 p.2) :
    s'.Healthy ∧ Eases k s s' ∧ ∀ p ∈ ps, p.1.Over (s'.Shallow k) ∧ p.2.Over (s'.Shallow k) := by
  induction h with
  | nil => cases ho; exact ⟨hh, .refl k _, by simp⟩
  | @cons l r ps s s1 o h _ ih =>
    have hlr : (Call.types l r).Over (s1.Shallow k) := shown_of_tried h hh (hps (l, r) (by simp))
    have hfirst := eases_of_tried h hlr
    obtain ⟨hh', hrest, hps'⟩ := ih ho (healthy_of_tried h hh) fun p hp =>
      hfirst.ties (hps p (by simp [hp]))
    refine ⟨hh', hfirst.trans hrest, fun p hp => ?_⟩
    rcases List.mem_cons.mp hp with rfl | hp
    · exact ⟨hrest.over_shallow hlr.1, hrest.over_shallow hlr.2⟩
    · exact hps' p hp
  | failed => cases ho

/-- Two roots that were made equal are one. -/
theorem root_eq_of_roots {R : Call → Store → Outcome → Prop} {g : Guard} {a b : Var}
    (h : RootsRule g (Careful g R) a b s o) (ho : o = .unified s') (hs : s.WellFormed)
    (ha : a < s.size) (hb : b < s.size) (hra : s.root a = a) (hrb : s.root b = b) :
    s'.root a = s'.root b := by
  have hlink : ∀ {s : Store} {x y : Var}, s.Forest → x < s.size → y < s.size → s.root x = x →
      s.root y = y → x ≠ y → (s.link x y).root x = (s.link x y).root y := by
    intro s x y hf hx hy hrx hry hxy
    obtain ⟨_, hro, _⟩ := link_view hf hx hy hrx hry hxy
    rw [hro, hro, hrx, hry, if_pos rfl, if_neg hxy.symm]
  have hadopt : ∀ {s1 : Store} {x y : Var} {t : Ty} {rank : Rank}, Relinked s s1 → x < s.size →
      y < s.size → s.root x = x → s.root y = y → x ≠ y →
      ((s1.lowerRanks (s1.reach t) rank).link x y).root x =
        ((s1.lowerRanks (s1.reach t) rank).link x y).root y := by
    intro s1 x y t rank h1 hx hy hrx hry hxy
    obtain ⟨hf, hal1⟩ := lowerRanks_alike (h1.forest hs.forest) rank (s1.reach t)
    have hal := (h1.alike hs.forest.linksEnd).trans hal1
    refine hlink hf ?_ ?_ ?_ ?_ hxy
    · rw [hal.size]; exact hx
    · rw [hal.size]; exact hy
    · rw [hal.root]; exact hrx
    · rw [hal.root]; exact hry
  cases h with
  | same hab => cases ho; rw [hab]
  | poisonedLeft hab => cases ho; exact (hlink hs.forest hb ha hrb hra hab.symm).symm
  | poisonedRight hab => cases ho; exact hlink hs.forest ha hb hra hrb hab
  | merge hab _ hcb =>
    cases ho
    obtain ⟨_, hal⟩ := merge_alike hs.forest ha hb hra hrb hab (kind_eq_free.mpr ⟨_, _, hcb⟩) _ _
    rw [hal.root, hal.root]
    exact hlink hs.forest ha hb hra hrb hab
  | adoptLeft hab _ _ hrun ho' =>
    rcases adopt_spec hs.forest.linksEnd hrun ho' with ⟨_, m, _, hm, _⟩ | ⟨_, s1, hm, h1⟩
    · cases hm.symm.trans ho
    · cases hm.symm.trans ho
      exact hadopt h1 ha hb hra hrb hab
  | adoptRight hab _ _ hrun ho' =>
    rcases adopt_spec hs.forest.linksEnd hrun ho' with ⟨_, m, _, hm, _⟩ | ⟨_, s1, hm, h1⟩
    · cases hm.symm.trans ho
    · cases hm.symm.trans ho
      exact (hadopt h1 hb ha hrb hra hab.symm).symm
  | @join l r s1 s2 s3 a' b' hab _ _ h hfa hfb _ =>
    cases ho
    have hsteps : Steps g false s s1 := h.after
    have hs1 := hsteps.wellFormed hs
    have hle := hsteps.size_le hs
    obtain ⟨rfl, rfl, hf, hal, -, ⟨ha', hb'⟩, hra', hrb'⟩ := find_both hs1.forest
      (ha.trans_le hle) (hb.trans_le hle) hfa hfb
    split
    · rename_i heq
      rw [hal.root, hal.root, heq]
    · rename_i hne
      obtain ⟨_, hro, _⟩ := link_view hf ha' hb' hra' hrb' hne
      rw [hro, hro, hal.root, hal.root, if_pos rfl, if_neg (Ne.symm hne)]
  | joinFailed => cases ho

theorem row_shows (hs : s.WellFormed) {n : Nat} {fields : List (String × Ty)} {ext : Option Var}
    {row : Row} (h : s.row n fields ext = some row) (hshow : s.Shows k (.record fields ext)) :
    s.Shows k (rowType row) ∧ ∀ v ∈ (Ty.record fields ext).vars,
      s.Shallow k v ∨ ∃ w ∈ (rowType row).vars, s.root v = s.root w := by
  have hover : (rowType row).Over (s.Loose k) := row_over hs.usable
    (fun _ hv => hv.root hs.forest)
    (fun _ _ hv hk => over_loose_of_shallow (hv.bound hs.toFormed hk)) h hshow.loose
  suffices hrow : (rowType row).Exposed s.aliases (s.Shallow k) ∧
      ∀ v ∈ (Ty.record fields ext).vars,
        s.Shallow k v ∨ ∃ w ∈ (rowType row).vars, s.root v = s.root w from
    ⟨⟨hrow.1, hover⟩, hrow.2⟩
  clear hover
  have hfields : ∀ {fields ext tail}, s.Shows k (.record fields ext) →
      (∀ v, ext = some v → s.Shallow k v) →
      (rowType ⟨fields, tail⟩).Exposed s.aliases (s.Shallow k) ∧
      ∀ v ∈ (Ty.record fields ext).vars,
        s.Shallow k v ∨ ∃ w ∈ (rowType ⟨fields, tail⟩).vars, s.root v = s.root w := by
    refine fun hshow hshallow => ⟨.record fun f hf => hshow.exposed.record_inv hf, fun v hv => ?_⟩
    rcases Ty.mem_vars_record.mp hv with hv | hv
    · exact .inr ⟨v, Ty.mem_vars_record.mpr (.inl hv), rfl⟩
    · exact .inl (hshallow v hv)
  have hshallow : ∀ {fields x}, s.Shows k (.record fields (some x)) → s.kind x ≠ .free →
      ∀ v, some x = some v → s.Shallow k v := by
    rintro fields x hshow hk _ ⟨⟩
    exact ((Ty.over_record.mp hshow.loose).2.2 x rfl).shallow hk
  refine row_induction (motive := fun fields ext row => s.Shows k (.record fields ext) →
    (rowType row).Exposed s.aliases (s.Shallow k) ∧ ∀ v ∈ (Ty.record fields ext).vars,
      s.Shallow k v ∨ ∃ w ∈ (rowType row).vars, s.root v = s.root w) ?_ ?_ ?_ ?_ ?_ h hshow
  · exact fun fields hshow => hfields hshow (by simp)
  · intro fields x _ _ _ hshow
    refine ⟨.record fun f hf => hshow.exposed.record_inv hf, fun v hv => .inr ?_⟩
    rcases Ty.mem_vars_record.mp hv with hv | hv
    · exact ⟨v, Ty.mem_vars_record.mpr (.inl hv), rfl⟩
    · cases hv
      exact ⟨s.root x, Ty.mem_vars_record.mpr (.inr rfl), (hs.forest.root_root x).symm⟩
  · exact fun fields x hc hshow =>
      hfields hshow (hshallow hshow (by rw [kind_eq_poisoned.mpr hc]; simp))
  · intro n fields x t more rest row hc hhead ih hshow
    have hk : s.kind x = .bound t := kind_eq_bound.mpr hc
    obtain ⟨hsort, hf, hext⟩ := Ty.over_record.mp hshow.loose
    have hmore := (hs.usable.head_settled ((hext x rfl).bound hs.toFormed hk) hhead).1
    have hunion : s.Shows k (.record (Assoc.union fields more) rest) := by
      refine ⟨.record fun f hf => ?_, Ty.over_union hshow.loose (over_loose_of_shallow hmore)⟩
      rcases Assoc.mem_of_mem_union hf with hf | hf
      · exact hshow.exposed.record_inv hf
      · exact .known ((Ty.over_record.mp hmore).2.1 f hf)
    obtain ⟨hrow, hcovers⟩ := ih hunion
    refine ⟨hrow, fun v hv => ?_⟩
    rcases Ty.mem_vars_record.mp hv with ⟨f, hf, hv⟩ | hv
    · refine hcovers v (Ty.mem_vars_record.mpr (.inl ⟨f, Assoc.mem_of_get? ?_, hv⟩))
      rw [Assoc.get?_union hsort, Assoc.get?_of_mem hsort hf, Option.some_or]
    · exact .inl (hshallow hshow (by rw [hk]; simp) v hv)
  · intro n fields x t hd hc _ _ hshow
    exact hfields hshow (hshallow hshow (by rw [kind_eq_bound.mpr hc]; simp))

theorem heads_shown (h : HeadsRule (Careful .tight (Tried k)) l r s o) (ho : o = .unified s')
    (hs : s.WellFormed) (hh : s.Healthy) (hr : r.Fits s.size)
    (hset : ∀ name args, r = .app name args → s.aliases.expand name args = none)
    (hlr : s.Ties k l r) : l.Over (s'.Shallow k) ∧ r.Over (s'.Shallow k) := by
  cases h with
  | var _ h => cases ho; exact shown_of_tried h hh hlr
  | @func a b c d _ _ h =>
    obtain ⟨_, _, hps⟩ := each_shown h ho hh fun p hp => by
      rcases hlr with ⟨hl, hshow⟩ | ⟨hline, hr⟩
      · obtain ⟨ha, hb⟩ := Ty.over_func.mp hl
        obtain ⟨hc, hd⟩ := hshow.exposed.func_inv
        obtain ⟨hc', hd'⟩ := Ty.over_func.mp hshow.loose
        rcases List.mem_pair.mp hp with rfl | rfl
        · exact .inl ⟨ha, hc, hc'⟩
        · exact .inl ⟨hb, hd, hd'⟩
      · obtain ⟨ha, hb⟩ := hline.spine.func_inv
        obtain ⟨ha', hb'⟩ := Ty.over_func.mp hline.loose
        obtain ⟨hc, hd⟩ := Ty.over_func.mp hr
        rcases List.mem_pair.mp hp with rfl | rfl
        · exact .inr ⟨⟨ha, ha'⟩, hc⟩
        · exact .inr ⟨⟨hb, hb'⟩, hd⟩
    obtain ⟨ha, hc⟩ := hps (a, c) (by simp)
    obtain ⟨hb, hd⟩ := hps (b, d) (by simp)
    exact ⟨Ty.over_func.mpr ⟨ha, hb⟩, Ty.over_func.mpr ⟨hc, hd⟩⟩
  | @app f as bs _ _ hlen h =>
    have hlr : (Ty.app f as).Over (s.Shallow k) ∧ s.Shows k (.app f bs) :=
      hlr.elim id fun ⟨hline, hr⟩ => ⟨by cases hline.spine; assumption, .of_shallow hr⟩
    obtain ⟨hl, hshow⟩ := hlr
    obtain ⟨_, hease, hps⟩ := each_shown h ho hh fun p hp => by
      obtain ⟨ha, hb⟩ := List.of_mem_zip hp
      exact .inl ⟨Ty.over_app.mp hl _ ha, hshow.exposed.app_inv (hset f bs rfl) hb,
        Ty.over_app.mp hshow.loose _ hb⟩
    refine ⟨hease.over_shallow hl, Ty.over_app.mpr fun b hb => ?_⟩
    obtain ⟨a, _, hover⟩ :=
      exists_of_forall₂_right (forall₂_of_zip hlen fun a b hab => (hps (a, b) hab).2) hb
    exact hover
  | @record fs gs ext ext' i rowL rowR _ s1 s2 _ hgatherL hgatherR h =>
    have hlr : (Ty.record fs ext).Over (s.Shallow k) ∧ s.Shows k (.record gs ext') :=
      hlr.elim id fun ⟨hline, hr⟩ => ⟨by cases hline.spine; assumption, .of_shallow hr⟩
    obtain ⟨hl, hshow⟩ := hlr
    cases ho
    obtain ⟨hrowL, hrowR, h2⟩ := gather_spec hs.forest.linksEnd hgatherL hgatherR
    have hl2 := hs.forest.linksEnd
    have hease : Eases k s s2 := .relinked h2 hl2
    obtain ⟨hrow, hcovers⟩ := row_shows hs hrowR hshow
    have hrow' := row_over hs.usable (fun _ hv => hv.root hs.forest)
      (fun _ _ hv => hv.bound hs.toFormed) hrowL hl
    refine shown_of_tried h ((h2.alike hl2).healthy hh) ⟨hease.over_shallow hrow', hease.shows hrow,
      hease.over_shallow hl, fun v hv => (hcovers v hv).imp hease.shallow ?_⟩
    simp only [h2.root hl2]
    exact id
  | clash _ h ho' =>
    obtain ⟨m, _, hm, _⟩ := failWith_spec hs.forest.linksEnd h ho'
    cases hm.symm.trans ho

variable {rowL rowR : Row}

theorem rowType_shallow (hR : Assoc.Sorted rowR.fields)
    (hshared : ∀ q ∈ Assoc.shared rowL.fields rowR.fields, q.2.Over (s.Shallow k))
    (honly : (Ty.record (Assoc.without rowR.fields rowL.fields) none).Over (s.Shallow k))
    (htail : ∀ v, rowR.tail = .opened v → s.Shallow k v) : (rowType rowR).Over (s.Shallow k) := by
  refine Ty.over_record.mpr ⟨hR, ?_, fun v hv => ?_⟩
  · rintro ⟨name, t⟩ hf
    have hget := Assoc.get?_of_mem hR hf
    cases hl : Assoc.get? rowL.fields name with
    | some u => exact hshared (u, t) (mem_shared_of_get? hl hget)
    | none =>
      refine (Ty.over_record.mp honly).2.1 (name, t) (Assoc.mem_of_get? ?_)
      rwa [Assoc.get?_without, if_neg (Assoc.get?_eq_none_iff.mp hl)]
  · cases ht : rowR.tail with
    | opened => rw [ht] at hv; cases hv; exact htail _ ht
    | _ => rw [ht] at hv; cases hv

theorem ends_shown (h : EndsRule .tight (Careful .tight (Tried k)) rowL rowR l r s o)
    (ho : o = .unified s') (hh : s.Healthy) (hL : (rowType rowL).Over (s.Shallow k))
    (hR : s.Shows k (rowType rowR))
    (hshared : ∀ q ∈ Assoc.shared rowL.fields rowR.fields, q.2.Over (s.Shallow k))
    (hl : l.Over (s.Shallow k)) (hr : r.Fits s.size) :
    Eases k s s' ∧ (r.Over (s'.Shallow k) ∨ (rowType rowR).Over (s'.Shallow k)) := by
  have hl0 := hh.forest.linksEnd
  have hsort := (Ty.over_record.mp hR.loose).1
  have honly : s.Shows k (.record (Assoc.without rowR.fields rowL.fields) none) :=
    ⟨.record fun f hf => hR.exposed.record_inv (List.mem_filter.mp hf).1,
      rowType_without hR.loose (by simp)⟩
  have hmatched : ∀ {s' : Store}, Assoc.without rowR.fields rowL.fields = [] → Eases k s s' →
      (∀ v, rowR.tail = .opened v → s'.Shallow k v) → (rowType rowR).Over (s'.Shallow k) := by
    intro s' hnil hease htail
    refine rowType_shallow hsort (fun q hq => hease.over_shallow (hshared q hq)) ?_ htail
    rw [hnil]
    exact Ty.over_record.mpr ⟨List.Pairwise.nil, by simp, by simp⟩
  cases h with
  | spoiled _ hskip => cases ho; exact ⟨.refl k s, .inl (shallow_of_skip hskip hl hr)⟩
  | taken _ _ _ hrank hskip =>
    cases ho
    have hease : Eases k s s' := .relinked (restRank_spec hrank).2 hl0
    exact ⟨hease, .inl (hease.over_shallow (shallow_of_skip hskip hl hr))⟩
  | mismatch _ h ho' =>
    obtain ⟨m, _, hm, _⟩ := failWith_spec hl0 h ho'
    cases hm.symm.trans ho
  | matched hun htail =>
    cases ho
    refine ⟨.refl k s, .inr (hmatched (unmatched_eq_none hun htail).2 (.refl k s) fun w hw => ?_)⟩
    rcases htail with ⟨_, hclosed⟩ | ⟨v, hv, hw'⟩
    · rw [hclosed] at hw; cases hw
    · rw [hw'] at hw
      cases hw
      exact hL.mem (mem_rowType hv)
  | @openLeft v _ hun hv hclosed h =>
    cases ho
    obtain ⟨hv', hrest⟩ := shown_of_tried h hh (.inl ⟨hL.mem (mem_rowType hv), honly⟩)
    have hease := eases_of_tried h ⟨hv', hrest⟩
    refine ⟨hease, .inr (rowType_shallow hsort (fun q hq => hease.over_shallow (hshared q hq)) hrest
      fun w hw => ?_)⟩
    rw [hclosed] at hw
    cases hw
  | @openRight w _ hun hclosed hw h =>
    cases ho
    obtain ⟨hw', hrest⟩ := shown_of_tried h hh
      (.inr ⟨hR.loose.mem (mem_rowType hw), rowType_without hL (by simp)⟩)
    have hease := eases_of_tried h ⟨hw', hrest⟩
    have hnil : Assoc.without rowR.fields rowL.fields = [] := by
      simpa [unmatched, hclosed, hw] using hun
    refine ⟨hease, .inr (hmatched hnil hease fun x hx => ?_)⟩
    rw [hw] at hx
    cases hx
    exact hw'
  | @openBoth v w rank s1 _ _ hv hw hrank h =>
    cases ho
    have h1 := (restRank_spec hrank).2
    have hlooked : Eases k s s1 := .relinked h1 hl0
    have hall := shown_of_tried h ((h1.alike hl0).healthy hh) ⟨hlooked.shallow (hL.mem (mem_rowType hv)),
      hlooked.loose (hR.loose.mem (mem_rowType hw)),
      hlooked.over_shallow (rowType_without hL (by simp)), hlooked.shows honly⟩
    have hease := hlooked.trans (eases_of_tried h hall)
    obtain ⟨_, hw', _, hrest⟩ := hall
    refine ⟨hease, .inr (rowType_shallow hsort (fun q hq => hease.over_shallow (hshared q hq)) hrest
      fun x hx => ?_)⟩
    rw [hw] at hx
    cases hx
    exact hw'

theorem kind_of_adopt (hs : s.Forest) {x a : Var} {s1 : Store} {i : Nat} {rank : Rank}
    (hx : x < s.size) (hfind : s.find x = (a, s1))
    (h : s1.adopt i a rank t (fun s => s.put a (.bound t)) = .unified s') : s'.kind x = .bound t := by
  obtain ⟨rfl, hf, hal, _⟩ := find_spec hs hx hfind
  rcases adopt_spec hf.linksEnd h (by simp) with ⟨_, m, _, hm, _⟩ | ⟨_, s2, hm, h2⟩
  · cases hm
  · cases hm
    obtain ⟨hf', hal2⟩ := lowerRanks_alike (h2.forest hf) rank (s2.reach t)
    have hal' := hal.trans ((h2.alike hf.linksEnd).trans hal2)
    obtain ⟨_, _, hput⟩ := put_view (r := s.root x) hf'
      (by rw [hal'.size]; exact hs.root_lt hx) (by rw [hal'.root]; exact hs.root_root x) (.bound t)
    rw [kind_eq_bound, hput, if_pos (hal'.root x)]

theorem bound_shown {side : Side} {x : Var} {s1 : Store} {u : Ty}
    (h : Careful .tight (Tried k) (.against side u t) s1 (.unified s')) (hh : s1.Healthy)
    (hfound : Eases k s s1) (hu : u.Over (s1.Shallow k)) (hc : (Call.var side x t).Ties s k) :
    t.Over (s'.Shallow k) := by
  cases side with
  | left =>
    have hshow : s.Shows k t := hc.elim (fun hc => hc.2) fun hc => .of_shallow hc.2
    exact (shown_of_tried h hh (.inl ⟨hu, hfound.shows hshow⟩)).2
  | right =>
    exact (shown_of_tried h hh (hc.symm.imp (fun hc => ⟨hfound.over_shallow hc.2, .of_shallow hu⟩)
      fun hc => ⟨hfound.lines hc.2, hu⟩)).1

section Kept

variable (hs : s.WellFormed) (hh : s.Healthy) (hkept : ∀ {v}, s.Shallow k v → s'.Shallow k v)

include hs hh hkept

theorem settled_shown {l' r' : Ty} {i : Nat} (hl : s.aliases.head i l = some (.settled l'))
    (hr : s.aliases.head i r = some (.settled r'))
    (h : HeadsRule (Careful .tight (Tried k)) l' r' s (.unified s')) (hfit : r.Fits s.size)
    (hc : s.Ties k l r) : l.Over (s'.Shallow k) ∧ r.Over (s'.Shallow k) := by
  obtain ⟨hfr, hset⟩ := hs.usable.head_settled hfit hr
  have hheads := heads_shown h rfl hs hh hfr hset
  rcases hc with ⟨hl', hshow⟩ | ⟨hline, hr'⟩
  · obtain ⟨hexp, hvars⟩ := hshow.exposed.head hs.usable hr
    obtain ⟨_, hover'⟩ := hheads (.inl ⟨(hs.usable.head_settled hl' hl).1, hexp,
      (hs.usable.head_settled hshow.loose hr).1⟩)
    refine ⟨hl'.mono fun _ => hkept, hfit.restrict fun v hv => ?_⟩
    exact (hvars v hv).elim hkept fun hv => hover'.mem hv
  · have hr'' := (hs.usable.head_settled hr' hr).1
    refine ⟨?_, hr'.mono fun _ => hkept⟩
    rcases hline.spine.head hl with hl' | rfl
    · exact hl'.mono fun _ => hkept
    · exact (hheads (.inr ⟨hline, hr''⟩)).1

theorem rows_shown {s1 : Store}
    (h : Each (Careful .tight (Tried k)) (Assoc.shared rowL.fields rowR.fields) s (.unified s1))
    (hend : EndsRule .tight (Careful .tight (Tried k)) rowL rowR l r s1 (.unified s'))
    (hsteps : Steps .tight false s s') (hfit : r.Fits s.size)
    (hc : (Call.rows rowL rowR l r).Ties s k) : l.Over (s'.Shallow k) ∧ r.Over (s'.Shallow k) := by
  obtain ⟨hL, hR, hl, hcovers⟩ := hc
  have hsteps1 : Steps .tight false s s1 := h.after
  obtain ⟨hh1, hease, hps⟩ := each_shown h rfl hh fun q hq => by
    obtain ⟨name, hql, hqr⟩ := mem_shared hq
    have hmem := Assoc.mem_of_get? hqr
    exact .inl ⟨(Ty.over_record.mp hL).2.1 _ hql, hR.exposed.record_inv hmem,
      (Ty.over_record.mp hR.loose).2.1 _ hmem⟩
  obtain ⟨_, hends⟩ := ends_shown hend rfl hh1 (hease.over_shallow hL) (hease.shows hR)
    (fun q hq => (hps q hq).2) (hease.over_shallow hl) (hfit.mono (hsteps1.size_le hs))
  refine ⟨hl.mono fun _ => hkept, hends.elim id fun hrow => hfit.restrict fun v hv => ?_⟩
  rcases hcovers v hv with hv | ⟨w, hw, heq⟩
  · exact hkept hv
  · -- of variables with one root, either shows that the other is shallow
    exact (hrow.mem hw).of_root_eq (hsteps.wellFormed hs).forest
      ((hfit.lt hv).trans_le (hsteps.size_le hs)) (hsteps.root_eq hs heq)

theorem tails_shown {x y : Var} {rank : Rank} {onlyLeft onlyRight : List (String × Ty)} {s2 : Store}
    (h : Careful .tight (Tried k) (.var .left x (.record onlyRight (some s.size)))
      (s.fresh rank none).2 (.unified s2))
    (h' : Careful .tight (Tried k) (.var .right y (.record onlyLeft (some s.size))) s2 (.unified s'))
    (hc : (Call.tails x y rank onlyLeft onlyRight).Ties s k) :
    (Call.tails x y rank onlyLeft onlyRight).Over (s'.Shallow k) := by
  obtain ⟨hx, hy, hleft, hright⟩ := hc
  have hfresh : Eases k s (s.fresh rank none).2 := .fresh hs.toFormed rank
  have hh1 : (s.fresh rank none).2.Healthy :=
    Steps.healthy (g := .tight) (.single (.fresh rank none)) hs hh
  have hshow : (s.fresh rank none).2.Shows k (.record onlyRight (some s.size)) := by
    refine ⟨.record fun f hf => (hfresh.exposed hright.exposed).record_inv hf,
      record_over_ext (hfresh.over_loose hright.loose) fun v hv => ?_⟩
    cases hv
    exact .inr (isolated_fresh hs.toFormed rank none)
  have hfirst := shown_of_tried h hh1 (.inl ⟨hfresh.shallow hx, hshow⟩)
  have hease := eases_of_tried h hfirst
  have hrest : s2.Shallow k s.size := (Ty.over_record.mp hfirst.2).2.2 _ rfl
  have hsecond := shown_of_tried h' (healthy_of_tried h hh1) (.inr ⟨hease.loose (hfresh.loose hy),
    record_over_ext (hease.over_shallow (hfresh.over_shallow hleft)) fun v hv => by
      cases hv; exact hrest⟩)
  have hlast := eases_of_tried h' hsecond
  refine ⟨hkept hx, hsecond.1, hleft.mono fun _ => hkept, ?_⟩
  exact record_over_ext (hlast.over_shallow hfirst.2) (by simp)

end Kept

theorem rule_tying (hs : s.WellFormed) (hfit : c.Fits s.size)
    (h : Rule .tight (Careful .tight (Tried k)) c s o) : Tying k c s o := by
  rintro n s' rfl hrun hh hc
  have hsteps : Steps .tight false s s' := hrun.after hs hfit
  have hs' := hsteps.wellFormed hs
  have hkept : ∀ {v}, s.Shallow k v → s'.Shallow k v := fun hv =>
    ⟨hv.lt.trans_le (hsteps.size_le hs), hrun.within_kept hs hfit hv.lt hv.within⟩
  generalize ho : Outcome.unified s' = o at h
  cases h with
  | varVar h =>
    cases ho
    obtain ⟨hv, hw⟩ := shown_of_tried h hh (hc.imp
      (fun hc => ⟨Ty.over_var.mp hc.1, Ty.over_var.mp hc.2.loose⟩)
      fun hc => ⟨Ty.over_var.mp hc.1.loose, Ty.over_var.mp hc.2⟩)
    exact ⟨Ty.over_var.mpr hv, Ty.over_var.mpr hw⟩
  | varLeft _ h =>
    cases ho
    obtain ⟨hv, ht⟩ := shown_of_tried h hh (hc.imp (fun hc => ⟨Ty.over_var.mp hc.1, hc.2⟩)
      fun hc => ⟨Ty.over_var.mp hc.1.loose, hc.2⟩)
    exact ⟨Ty.over_var.mpr hv, ht⟩
  | varRight _ h =>
    cases ho
    obtain ⟨hw, ht⟩ := shown_of_tried h hh (hc.symm.imp (fun hc => ⟨Ty.over_var.mp hc.2, hc.1⟩)
      fun hc => ⟨Ty.over_var.mp hc.2.loose, hc.1⟩)
    exact ⟨ht, Ty.over_var.mpr hw⟩
  | noVar _ _ h =>
    cases ho
    have hlr := shown_of_tried h hh hc
    exact hlr
  | @vars x y a b s s1 s2 o hx hy h =>
    obtain ⟨hxs, hys⟩ := hfit
    obtain ⟨rfl, rfl, hf, hal, -, ⟨ha, hb⟩, hra, hrb⟩ := find_both hs.forest hxs hys hx hy
    have hfound : Steps .tight false s s2 := .single (.alike hf hal)
    have hroots := root_eq_of_roots h ho.symm (hfound.wellFormed hs) ha hb hra hrb
    have heq : s'.root x = s'.root y := by
      rw [hsteps.root_eq hs (hs.forest.root_root x).symm, hroots]
      exact hsteps.root_eq hs (hs.forest.root_root y)
    have hle := hsteps.size_le hs
    rcases hc with ⟨hx, _⟩ | ⟨_, hy⟩
    · exact ⟨hkept hx, (hkept hx).of_root_eq hs'.forest (hys.trans_le hle) heq.symm⟩
    · exact ⟨(hkept hy).of_root_eq hs'.forest (hxs.trans_le hle) heq, hkept hy⟩
  | poisoned hx hcon =>
    obtain ⟨rfl, _, _, hc1⟩ := find_spec hs.forest hfit.1 hx
    rw [hc1] at hcon
    exact absurd (kind_eq_poisoned.mpr hcon) (hh _ (hs.forest.root_lt hfit.1))
  | @bind side x a t i rank hint s s1 o hx _ h _ =>
    have hk := kind_of_adopt hs.forest hfit.1 hx (h.trans ho.symm)
    have hdone : s.Shallow k x ∨ t.Over (s.Shallow k) := by
      cases side <;> exact hc.imp (fun hc => hc.1) fun hc => hc.2
    rcases hdone with hx | ht
    · exact ⟨hkept hx, (hkept hx).bound hs'.toFormed hk⟩
    · have ht' := ht.mono fun _ => hkept
      exact ⟨shallow_of_bound hs'.forest hk ht', ht'⟩
  | @bound side x a t u s s1 o hx hcon h =>
    obtain ⟨rfl, hf, hal, hc1⟩ := find_spec hs.forest hfit.1 hx
    have hfound : Eases k s s1 := .alike hal hc1
    have hk : s.kind x = .bound u := by
      rw [← kind_root hs.forest, kind_eq_bound, ← hc1]
      exact hcon
    have hx : s.Shallow k x := by
      cases side <;> exact hc.elim (fun hc => hc.1) fun hc => hc.1.shallow (by rw [hk]; simp)
    have hu := hfound.over_shallow (hx.bound hs.toFormed hk)
    cases o with
    | unified s2 => cases ho; exact ⟨hkept hx, bound_shown h (hal.healthy hh) hfound hu hc⟩
    | failed => cases ho
    | outOfFuel => cases ho
  | stuckLeft _ h ho' | stuckRight _ _ h ho' =>
    obtain ⟨m, _, hm, _⟩ := failWith_spec hs.forest.linksEnd h ho'
    cases ho.trans hm
  | settled hl hr h => cases ho; exact settled_shown hs hh hkept hl hr h hfit.2 hc
  | rows h hend => cases ho; exact rows_shown hs hh hkept h hend hsteps hfit.2.2.2 hc
  | rowsFailed => cases ho
  | tails hf h h' => cases hf; cases ho; exact tails_shown hs hh hkept h h' hc
  | tailsFailed => cases ho

end Tying

theorem Runs.shallow {n : Nat} (h : Runs .tight n (.types l r) s (.unified s')) (hs : s.WellFormed)
    (hh : s.Healthy) (hfit : (Call.types l r).Fits s.size) (hlr : s.Ties k l r) :
    l.Over (s'.Shallow k) ∧ r.Over (s'.Shallow k) :=
  h.run_induction (fun _ _ _ hs hfit hrule => rule_tying hs hfit hrule) hs hfit n s' rfl h hh hlr

end Store
end TypeSolver
