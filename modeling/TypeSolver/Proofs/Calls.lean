import TypeSolver.Proofs.Rules

/-!
# TypeSolver.Proofs.Calls

The calls that a call of the unifier makes. `Invokes R c s c' s'` says that the call `c` on the
store `s` comes to make the call `c'` on the store `s'`, if the calls that it makes before end as
`R` says. A rule is about no other calls than these (`Rule.map`).

A `Tracker` says what holds of calls before and after they are made. It passes from a call to the
calls that it makes (`Poses`), and each write of the unifier respects it. Then it holds of all runs
(`Rule.tracked`).
-/

namespace TypeSolver
namespace Store

def operands : Ty → Ty → List (Ty × Ty)
  | .func a b, .func c d => [(a, c), (b, d)]
  | .app f as, .app g bs => if f = g ∧ as.length = bs.length then as.zip bs else []
  | _, _ => []

section Calls

variable (R : Call → Store → Outcome → Prop)

/-- How the call that settles the tails of two rows goes on. -/
inductive EndsInvoke (rowL rowR : Row) (s : Store) : Call → Prop where
  | openLeft {v : Var} : unmatched rowL rowR = none → rowL.tail = .opened v →
      rowR.tail = .closed → EndsInvoke rowL rowR s
        (.var .left v (.record (Assoc.without rowR.fields rowL.fields) none))
  | openRight {w : Var} : unmatched rowL rowR = none → rowL.tail = .closed →
      rowR.tail = .opened w → EndsInvoke rowL rowR s
        (.var .right w (.record (Assoc.without rowL.fields rowR.fields) none))
  | openBoth {v w : Var} {rank : Rank} : v ≠ w → rowL.tail = .opened v →
      rowR.tail = .opened w → tailRank s v w = some rank →
      EndsInvoke rowL rowR s (.tails v w rank (Assoc.without rowL.fields rowR.fields)
        (Assoc.without rowR.fields rowL.fields))

/-- The store in which the call that settles the tails of two rows goes on. -/
def tailStore (rowL rowR : Row) (s : Store) : Store :=
  match rowL.tail, rowR.tail with
  | .opened v, .opened w => (s.restRank v w).2
  | _, _ => s

inductive Invokes : Call → Store → Call → Store → Prop where
  | varVar {v w : Var} {s : Store} : Invokes (.types (.var v) (.var w)) s (.vars v w) s
  | varLeft {v : Var} {t : Ty} {s : Store} : t.isVar = false →
      Invokes (.types (.var v) t) s (.var .left v t) s
  | varRight {w : Var} {t : Ty} {s : Store} : t.isVar = false →
      Invokes (.types t (.var w)) s (.var .right w t) s
  | noVar {l r : Ty} {s : Store} : l.isVar = false → r.isVar = false →
      Invokes (.types l r) s (.terms l r) s
  | join {v w a b : Var} {l r : Ty} {s s1 s2 : Store} : s.find v = (a, s1) →
      s1.find w = (b, s2) → a ≠ b → s2.content a = .bound l → s2.content b = .bound r →
      Invokes (.vars v w) s (.terms l r) s2
  | bound {side : Side} {v a : Var} {t u : Ty} {s s1 : Store} : s.find v = (a, s1) →
      s1.content a = .bound u → Invokes (.var side v t) s (.against side u t) s1
  | head {l r l' r' : Ty} {k : Nat} {s : Store} : s.aliases.head k l = some (.settled l') →
      s.aliases.head k r = some (.settled r') → l'.isVar ∨ r'.isVar →
      Invokes (.terms l r) s (.types l' r') s
  | operand {l r l' r' a b : Ty} {k : Nat} {before after : List (Ty × Ty)} {s s' : Store} :
      s.aliases.head k l = some (.settled l') → s.aliases.head k r = some (.settled r') →
      operands l' r' = before ++ (a, b) :: after → Each R before s (.unified s') →
      Invokes (.terms l r) s (.types a b) s'
  | record {l r : Ty} {fs gs : List (String × Ty)} {ext ext' : Option Var} {k k' : Nat}
      {rowL rowR : Row} {s s1 s2 : Store} :
      s.aliases.head k l = some (.settled (.record fs ext)) →
      s.aliases.head k r = some (.settled (.record gs ext')) →
      s.gather k' fs ext = some (rowL, s1) → s1.gather k' gs ext' = some (rowR, s2) →
      Invokes (.terms l r) s (.rows rowL rowR (.record fs ext) (.record gs ext')) s2
  | field {rowL rowR : Row} {l r a b : Ty} {before after : List (Ty × Ty)} {s s' : Store} :
      Assoc.shared rowL.fields rowR.fields = before ++ (a, b) :: after →
      Each R before s (.unified s') → Invokes (.rows rowL rowR l r) s (.types a b) s'
  | tail {rowL rowR : Row} {l r : Ty} {c : Call} {s s' : Store} :
      Each R (Assoc.shared rowL.fields rowR.fields) s (.unified s') →
      EndsInvoke rowL rowR (tailStore rowL rowR s') c →
      Invokes (.rows rowL rowR l r) s c (tailStore rowL rowR s')
  | restLeft {v w rest : Var} {rank : Rank} {onlyLeft onlyRight : List (String × Ty)}
      {s s1 : Store} : s.fresh rank none = (rest, s1) →
      Invokes (.tails v w rank onlyLeft onlyRight) s
        (.var .left v (.record onlyRight (some rest))) s1
  | restRight {v w rest : Var} {rank : Rank} {onlyLeft onlyRight : List (String × Ty)}
      {s s1 s2 : Store} : s.fresh rank none = (rest, s1) →
      R (.var .left v (.record onlyRight (some rest))) s1 (.unified s2) →
      Invokes (.tails v w rank onlyLeft onlyRight) s
        (.var .right w (.record onlyLeft (some rest))) s2

end Calls

variable {g : Guard} {R : Call → Store → Outcome → Prop} {c : Call} {s : Store} {o : Outcome}

section Tails

variable {rowL rowR : Row} {l r : Ty} {s' : Store}
  (hshared : Each R (Assoc.shared rowL.fields rowR.fields) s (.unified s'))

include hshared

theorem Invokes.openLeft {v : Var} (hun : unmatched rowL rowR = none)
    (hv : rowL.tail = .opened v) (hw : rowR.tail = .closed) : Invokes R (.rows rowL rowR l r) s
      (.var .left v (.record (Assoc.without rowR.fields rowL.fields) none)) s' := by
  have hstore : tailStore rowL rowR s' = s' := by rw [tailStore, hv, hw]
  have h := Invokes.tail (l := l) (r := r) hshared (.openLeft hun hv hw)
  rwa [hstore] at h

theorem Invokes.openRight {w : Var} (hun : unmatched rowL rowR = none)
    (hv : rowL.tail = .closed) (hw : rowR.tail = .opened w) : Invokes R (.rows rowL rowR l r) s
      (.var .right w (.record (Assoc.without rowL.fields rowR.fields) none)) s' := by
  have hstore : tailStore rowL rowR s' = s' := by rw [tailStore, hv, hw]
  have h := Invokes.tail (l := l) (r := r) hshared (.openRight hun hv hw)
  rwa [hstore] at h

theorem Invokes.openBoth {v w : Var} {rank : Rank} {s'' : Store} (hvw : v ≠ w)
    (hv : rowL.tail = .opened v) (hw : rowR.tail = .opened w)
    (hrank : s'.restRank v w = (some rank, s'')) : Invokes R (.rows rowL rowR l r) s
      (.tails v w rank (Assoc.without rowL.fields rowR.fields)
        (Assoc.without rowR.fields rowL.fields)) s'' := by
  have hstore : tailStore rowL rowR s' = s'' := by rw [tailStore, hv, hw]; simp only [hrank]
  have htail := (restRank_spec hrank).1
  have h := Invokes.tail (l := l) (r := r) hshared
    (.openBoth hvw hv hw (by rw [hstore]; exact htail))
  rwa [hstore] at h

end Tails

section Map

variable {g' : Guard} {R' : Call → Store → Outcome → Prop}
  (hjoin : ∀ s a b, g.join s a b → g'.join s a b) (hskip : ∀ s l r, g.skip s l r → g'.skip s l r)

theorem Each.map {ps : List (Ty × Ty)} (h : Each R ps s o)
    (hR : ∀ before a b after s' o', ps = before ++ (a, b) :: after → Each R before s (.unified s') →
      R (.types a b) s' o' → R' (.types a b) s' o') : Each R' ps s o := by
  induction h with
  | nil => exact .nil
  | @cons l r ps s s1 o h _ ih =>
    refine .cons (hR [] l r ps s _ rfl .nil h) (ih fun before a b after s' o' heq hbefore => ?_)
    exact hR ((l, r) :: before) a b after s' o' (by rw [heq]; rfl) (.cons h hbefore)
  | @failed l r ps s s1 m h => exact .failed (hR [] l r ps s _ rfl .nil h)

theorem HeadsRule.map {l r l' r' : Ty} {k : Nat} (hl : s.aliases.head k l = some (.settled l'))
    (hr : s.aliases.head k r = some (.settled r')) (h : HeadsRule R l' r' s o)
    (hR : ∀ c' s' o', Invokes R (.terms l r) s c' s' → R c' s' o' → R' c' s' o') :
    HeadsRule R' l' r' s o := by
  have hoperands : ∀ before a b after s' o', operands l' r' = before ++ (a, b) :: after →
      Each R before s (.unified s') → R (.types a b) s' o' → R' (.types a b) s' o' :=
    fun _ _ _ _ _ _ heq hbefore => hR _ _ _ (.operand hl hr heq hbefore)
  cases h with
  | var hvar h => exact .var hvar (hR _ _ _ (.head hl hr hvar) h)
  | func h => exact .func (h.map hoperands)
  | app hlen h =>
    rw [operands, if_pos ⟨rfl, hlen⟩] at hoperands
    exact .app hlen (h.map hoperands)
  | record hrowL hrowR h => exact .record hrowL hrowR (hR _ _ _ (.record hl hr hrowL hrowR) h)
  | clash hc h ho => exact .clash hc h ho

include hskip in
theorem EndsRule.map {rowL rowR : Row} {l r : Ty} {s' : Store}
    (hshared : Each R (Assoc.shared rowL.fields rowR.fields) s (.unified s'))
    (h : EndsRule g R rowL rowR l r s' o)
    (hR : ∀ c1 s1 o1, Invokes R (.rows rowL rowR l r) s c1 s1 → R c1 s1 o1 → R' c1 s1 o1) :
    EndsRule g' R' rowL rowR l r s' o := by
  cases h with
  | spoiled ht hs => exact .spoiled ht (hskip _ _ _ hs)
  | mismatch hun h ho => exact .mismatch hun h ho
  | matched hun ht => exact .matched hun ht
  | openLeft hun hv hw h =>
    exact .openLeft hun hv hw (hR _ _ _ (.openLeft hshared hun hv hw) h)
  | openRight hun hv hw h =>
    exact .openRight hun hv hw (hR _ _ _ (.openRight hshared hun hv hw) h)
  | taken hvw hv hw hr hs => exact .taken hvw hv hw hr (hskip _ _ _ hs)
  | openBoth hvw hv hw hr h =>
    exact .openBoth hvw hv hw hr (hR _ _ _ (.openBoth hshared hvw hv hw hr) h)

include hjoin hskip in
theorem Rule.map (h : Rule g R c s o)
    (hR : ∀ c' s' o', Invokes R c s c' s' → R c' s' o' → R' c' s' o') : Rule g' R' c s o := by
  cases h with
  | varVar h => exact .varVar (hR _ _ _ .varVar h)
  | varLeft ht h => exact .varLeft ht (hR _ _ _ (.varLeft ht) h)
  | varRight ht h => exact .varRight ht (hR _ _ _ (.varRight ht) h)
  | noVar hl hr h => exact .noVar hl hr (hR _ _ _ (.noVar hl hr) h)
  | vars hv hw h =>
    refine .vars hv hw ?_
    cases h with
    | same hab => exact .same hab
    | poisonedLeft hab ha => exact .poisonedLeft hab ha
    | poisonedRight hab ha hb => exact .poisonedRight hab ha hb
    | merge hab ha hb => exact .merge hab ha hb
    | adoptLeft hab ha hb h ho => exact .adoptLeft hab ha hb h ho
    | adoptRight hab ha hb h ho => exact .adoptRight hab ha hb h ho
    | join hab ha hb h hfa hfb hg =>
      exact .join hab ha hb (hR _ _ _ (.join hv hw hab ha hb) h) hfa hfb fun hne =>
        hjoin _ _ _ (hg hne)
    | joinFailed hab ha hb h => exact .joinFailed hab ha hb (hR _ _ _ (.join hv hw hab ha hb) h)
  | poisoned hv hc => exact .poisoned hv hc
  | bind hv hc h ho => exact .bind hv hc h ho
  | bound hv hc h => exact .bound hv hc (hR _ _ _ (.bound hv hc) h)
  | stuckLeft hl h ho => exact .stuckLeft hl h ho
  | stuckRight hl hr h ho => exact .stuckRight hl hr h ho
  | settled hl hr h => exact .settled hl hr (h.map hl hr hR)
  | rows hshared h =>
    exact .rows (hshared.map fun _ _ _ _ _ _ heq hbefore => hR _ _ _ (.field heq hbefore))
      (h.map hskip hshared hR)
  | rowsFailed hshared =>
    exact .rowsFailed (hshared.map fun _ _ _ _ _ _ heq hbefore => hR _ _ _ (.field heq hbefore))
  | tails hf h h' =>
    exact .tails hf (hR _ _ _ (.restLeft hf) h) (hR _ _ _ (.restRight hf h) h')
  | tailsFailed hf h => exact .tailsFailed hf (hR _ _ _ (.restLeft hf) h)

theorem Rule.mono (hR : ∀ c s o, R c s o → R' c s o) (h : Rule g R c s o) : Rule g R' c s o :=
  h.map (fun _ _ _ h => h) (fun _ _ _ h => h) fun c s o _ => hR c s o

end Map

/-! ## What the parts of a call do -/

section Parts

variable {s' : Store}

variable {a v : Var} {k : Nat}

theorem find_spec (h : s.Forest) (hv : v < s.size) (hf : s.find v = (a, s')) :
    a = s.root v ∧ s'.Forest ∧ Alike s s' ∧ ∀ w, s'.content w = s.content w := by
  have ha : (s.find v).1 = a := by rw [hf]
  have hs : (s.find v).2 = s' := by rw [hf]
  rw [← ha, ← hs, find_fst]
  exact ⟨rfl, find_forest h hv, find_alike h hv, find_content h hv⟩

theorem find_both (h : s.Forest) {w b : Var} {s1 s2 : Store} (hv : v < s.size) (hw : w < s.size)
    (hfv : s.find v = (a, s1)) (hfw : s1.find w = (b, s2)) :
    a = s.root v ∧ b = s.root w ∧ s2.Forest ∧ Alike s s2 ∧ (∀ x, s2.content x = s.content x) ∧
      (a < s2.size ∧ b < s2.size) ∧ s2.root a = a ∧ s2.root b = b := by
  obtain ⟨rfl, hf1, hal1, hc1⟩ := find_spec h hv hfv
  obtain ⟨rfl, hf2, hal2, hc2⟩ := find_spec hf1 (by rwa [hal1.size]) hfw
  have hal := hal1.trans hal2
  refine ⟨rfl, hal1.root w, hf2, hal, fun x => (hc2 x).trans (hc1 x), ?_⟩
  rw [hal.size, hal1.root, hal.root, hal.root, h.root_root, h.root_root]
  exact ⟨⟨h.root_lt hv, h.root_lt hw⟩, rfl, rfl⟩

theorem failWith_spec (h : s.LinksEnd) {l r : Ty} {mismatch : NamedType → NamedType → Mismatch}
    (hrun : s.failWith k l r mismatch = o) (ho : o ≠ .outOfFuel) :
    ∃ m s', o = .failed m s' ∧ Relinked s s' := by
  rcases failWith_eq .refl h k l r mismatch with ⟨hfuel, _⟩ | ⟨_, _, s', _, _, hfail, h'⟩
  · exact absurd (hrun.symm.trans hfuel) ho
  · exact ⟨_, s', hrun.symm.trans hfail, h'⟩

section Adopt

variable (h : s.LinksEnd) (rank : Rank) {t : Ty} (become : Store → Store)

include h

theorem adopt_of_not_mem (ha : a ∉ s.reach t) : ∃ s', Relinked s s' ∧
    ∀ k, s.adopt k a rank t become = .unified (become (s'.lowerRanks (s'.reach t) rank)) := by
  obtain ⟨s1, hocc, h1⟩ := occurs_eq h a t
  obtain ⟨s2, hadjust, h2⟩ := adjustRanks_eq (h1.linksEnd h) t rank
  refine ⟨s2, h1.trans h2, fun k => ?_⟩
  rw [adopt, hocc]
  simp only [ha, decide_false]
  rw [hadjust, h2.reach (h1.linksEnd h)]

theorem adopt_of_mem (ha : a ∈ s.reach t) (k : Nat) :
    (s.adopt k a rank t become = .outOfFuel ∧
      (s.snapshot k (.var a) = none ∨ s.snapshot k t = none)) ∨
    ∃ shown shownTy s', s.snapshot k (.var a) = some shown ∧ s.snapshot k t = some shownTy ∧
      s.adopt k a rank t become = .failed (.occurs shown shownTy) (s'.poison a) ∧
      Relinked s s' := by
  obtain ⟨s1, hocc, h1⟩ := occurs_eq h a t
  rw [adopt, hocc]
  simp only [ha, decide_true]
  rcases failWith_eq h1 h k (.var a) t .occurs with
    ⟨hfuel, hnone⟩ | ⟨shown, shownTy, s2, hshown, hshownTy, hfail, h2⟩
  · exact .inl ⟨by rw [hfuel]; rfl, hnone⟩
  · exact .inr ⟨shown, shownTy, s2, hshown, hshownTy, by rw [hfail]; rfl, h2⟩

variable {rank become}

theorem adopt_spec (hrun : s.adopt k a rank t become = o) (ho : o ≠ .outOfFuel) :
    (a ∈ s.reach t ∧ ∃ m s', o = .failed m (s'.poison a) ∧ Relinked s s') ∨
      (a ∉ s.reach t ∧ ∃ s', o = .unified (become (s'.lowerRanks (s'.reach t) rank)) ∧
        Relinked s s') := by
  by_cases ha : a ∈ s.reach t
  · rcases adopt_of_mem h rank become ha k with ⟨hfuel, _⟩ | ⟨_, _, s', _, _, hfail, h'⟩
    · exact absurd (hrun.symm.trans hfuel) ho
    · exact .inl ⟨ha, _, s', hrun.symm.trans hfail, h'⟩
  · obtain ⟨s', h', heq⟩ := adopt_of_not_mem h rank become ha
    exact .inr ⟨ha, s', hrun.symm.trans (heq k), h'⟩

end Adopt

theorem gather_spec (h : s.LinksEnd) {fs gs : List (String × Ty)} {ext ext' : Option Var}
    {rowL rowR : Row} {s1 s2 : Store} (hL : s.gather k fs ext = some (rowL, s1))
    (hR : s1.gather k gs ext' = some (rowR, s2)) :
    s.row k fs ext = some rowL ∧ s.row k gs ext' = some rowR ∧ Relinked s s2 := by
  obtain ⟨hrowL, h1⟩ := (gather_finds .refl h k fs ext).view_eq hL
  obtain ⟨hrowR, h2⟩ := (gather_finds h1 h k gs ext').view_eq hR
  exact ⟨hrowL, hrowR, h2⟩

theorem exists_gather (h : s.LinksEnd) {fs gs : List (String × Ty)} {ext ext' : Option Var}
    {rowL rowR : Row} (hL : s.row k fs ext = some rowL) (hR : s.row k gs ext' = some rowR) :
    ∃ s1 s2, s.gather k fs ext = some (rowL, s1) ∧ s1.gather k gs ext' = some (rowR, s2) ∧
      Relinked s s2 := by
  obtain ⟨s1, hL, h1⟩ := (gather_finds .refl h k fs ext).exists_eq hL
  obtain ⟨s2, hR, h2⟩ := (gather_finds h1 h k gs ext').exists_eq hR
  exact ⟨s1, s2, hL, hR, h2⟩

theorem tailStore_relinked (rowL rowR : Row) (s : Store) : Relinked s (tailStore rowL rowR s) := by
  rw [tailStore]
  split
  · exact (Relinked.single s _).find _
  · exact .refl

end Parts

/-! ## Tracking calls -/

/-- Without a write to the store, the call comes to be about this call. -/
inductive Poses (s : Store) : Call → Call → Prop where
  | varVar {v w : Var} : Poses s (.types (.var v) (.var w)) (.vars v w)
  | varLeft {v : Var} {t : Ty} : t.isVar = false → Poses s (.types (.var v) t) (.var .left v t)
  | varRight {w : Var} {t : Ty} : t.isVar = false → Poses s (.types t (.var w)) (.var .right w t)
  | noVar {l r : Ty} : l.isVar = false → r.isVar = false → Poses s (.types l r) (.terms l r)
  | swapped {v w : Var} : Poses s (.vars v w) (.vars w v)
  | rootVars {v w : Var} : Poses s (.vars v w) (.vars (s.root v) (s.root w))
  | rootVar {side : Side} {v : Var} {t : Ty} :
      Poses s (.var side v t) (.var side (s.root v) t)
  | join {a b : Var} {l r : Ty} : s.content a = .bound l → s.content b = .bound r →
      Poses s (.vars a b) (.terms l r)
  | bound {side : Side} {a : Var} {t u : Ty} : s.content a = .bound u →
      Poses s (.var side a t) (.against side u t)
  | head {l r l' r' : Ty} {k : Nat} : s.aliases.head k l = some (.settled l') →
      s.aliases.head k r = some (.settled r') → Poses s (.terms l r) (.types l' r')
  | operand {l r l' r' : Ty} {k : Nat} {q : Ty × Ty} : s.aliases.head k l = some (.settled l') →
      s.aliases.head k r = some (.settled r') → q ∈ operands l' r' →
      Poses s (.terms l r) (.types q.1 q.2)
  | record {l r : Ty} {fs gs : List (String × Ty)} {ext ext' : Option Var} {k k' : Nat}
      {rowL rowR : Row} : s.aliases.head k l = some (.settled (.record fs ext)) →
      s.aliases.head k r = some (.settled (.record gs ext')) → s.row k' fs ext = some rowL →
      s.row k' gs ext' = some rowR →
      Poses s (.terms l r) (.rows rowL rowR (.record fs ext) (.record gs ext'))
  | field {rowL rowR : Row} {l r : Ty} {q : Ty × Ty} :
      q ∈ Assoc.shared rowL.fields rowR.fields →
      Poses s (.rows rowL rowR l r) (.types q.1 q.2)
  | tail {rowL rowR : Row} {l r : Ty} {c : Call} : EndsInvoke rowL rowR s c →
      Poses s (.rows rowL rowR l r) c

/-- In a state `x`, the call `c` may be made on the store `s` if `P x c s`, and then it leaves `s`
with an outcome `o` such that `E x s o`. -/
structure Tracker {γ : Type} (g : Guard) (R : Call → Store → Outcome → Prop)
    (P : γ → Call → Store → Prop) (E : γ → Store → Outcome → Prop) : Prop where
  forest {x c s} : P x c s → s.Forest
  lt {x v w s} : P x (.vars v w) s → v < s.size
  lt' {x side v t s} : P x (.var side v t) s → v < s.size
  poses {x c c' s} : P x c s → Poses s c c' → P x c' s
  /-- What could be asked of the store before can be asked of the store that is left. -/
  next {x s s'} : E x s (.unified s') →
    ∃ x', (∀ c, P x c s → P x' c s') ∧ ∀ o, E x' s' o → E x s o
  refl {x c s} : P x c s → E x s (.unified s)
  found {x c s v a s'} : P x c s → v < s.size → s.find v = (a, s') → E x s (.unified s')
  mismatch {x c s m} : P x c s → E x s (.failed m s)
  poison {x c s v m s'} : P x c s → v < s.size → E x s (.failed m s') →
    E x s (.failed m (s'.poison v))
  rest {x v w rank onlyLeft onlyRight s} : P x (.tails v w rank onlyLeft onlyRight) s →
    ∃ x', P x' (.var .left v (.record onlyRight (some s.size))) (s.fresh rank none).2 ∧
      P x' (.var .right w (.record onlyLeft (some s.size))) (s.fresh rank none).2 ∧
      ∀ o, E x' (s.fresh rank none).2 o → E x s o
  under {x a b s} : P x (.vars a b) s → s.root a = a → s.root b = b → a ≠ b →
    s.content b = .poisoned → E x s (.unified (s.link a b))
  merge {x a b s rankA rankB hintA hintB} : P x (.vars a b) s → s.root a = a → s.root b = b →
    a ≠ b → s.content a = .unbound rankA hintA → s.content b = .unbound rankB hintB →
    E x s (.unified ((s.link a b).put b (.unbound (min rankA rankB) (hintB <|> hintA))))
  adopt {x a b s rank hint t} : P x (.vars a b) s → s.root a = a → s.root b = b → a ≠ b →
    s.content a = .unbound rank hint → s.content b = .bound t → a ∉ s.reach t →
    E x s (.unified ((s.lowerRanks (s.reach t) rank).link a b))
  bind {x side a t s rank hint} : P x (.var side a t) s → s.root a = a →
    s.content a = .unbound rank hint → a ∉ s.reach t →
    E x s (.unified ((s.lowerRanks (s.reach t) rank).put a (.bound t)))
  /-- After the types of two classes were made equal, one class goes under the other. -/
  join {x a b s l r s1 s2} : P x (.vars a b) s → s.content a = .bound l →
    s.content b = .bound r → R (.terms l r) s (.unified s1) → E x s (.unified s2) → s2.Forest →
    Alike s1 s2 → s2.root a ≠ s2.root b → g.join s2 (s2.root a) (s2.root b) →
    E x s (.unified (s2.link (s2.root a) (s2.root b)))

section Tracking

variable {γ : Type} {P : γ → Call → Store → Prop} {E : γ → Store → Outcome → Prop}
  (T : Tracker g R P E) {x : γ} {c' : Call} {s' : Store}

include T

namespace Tracker

variable {a b v w : Var} {s1 s2 : Store}

theorem relinked (hc : P x c s) (h : Relinked s s') :
    ∃ x', (∀ c, P x c s → P x' c s') ∧ ∀ o, E x' s' o → E x s o := by
  induction h with
  | refl => exact ⟨x, fun _ h => h, fun _ h => h⟩
  | @find s1 v _ ih =>
    obtain ⟨x1, hkeep, hback⟩ := ih
    by_cases hv : v < s1.size
    · obtain ⟨x2, hkeep', hback'⟩ := T.next (T.found (hkeep c hc) hv rfl)
      exact ⟨x2, fun c hc => hkeep' c (hkeep c hc), fun o ho => hback o (hback' o ho)⟩
    · rw [find_of_size_le (Nat.le_of_not_lt hv)]
      exact ⟨x1, hkeep, hback⟩

theorem looked (hc : P x c s) (h : Relinked s s') : E x s (.unified s') := by
  obtain ⟨x', hkeep, hback⟩ := T.relinked hc h
  exact hback _ (T.refl (hkeep c hc))

theorem failed {m : Mismatch} (hc : P x c s) (h : Relinked s s') : E x s (.failed m s') := by
  obtain ⟨x', hkeep, hback⟩ := T.relinked hc h
  exact hback _ (T.mismatch (hkeep c hc))

theorem found_var {side : Side} {t : Ty} (hc : P x (.var side v t) s) (hv : s.find v = (a, s')) :
    ∃ x', P x' (.var side a t) s' ∧ s'.root a = a ∧ ∀ o, E x' s' o → E x s o := by
  obtain ⟨rfl, -, hal, -⟩ := find_spec (T.forest hc) (T.lt' hc) hv
  obtain ⟨x', hkeep, hback⟩ := T.next (T.found hc (T.lt' hc) hv)
  have hroot := T.poses (hkeep _ hc) .rootVar
  rw [hal.root] at hroot
  exact ⟨x', hroot, by rw [hal.root, (T.forest hc).root_root], hback⟩

theorem found_both (hc : P x (.vars v w) s) (hv : s.find v = (a, s1)) (hw : s1.find w = (b, s2)) :
    E x s (.unified s2) := by
  obtain ⟨x', hkeep, hback⟩ := T.next (T.found hc (T.lt hc) hv)
  have hc' := hkeep _ hc
  exact hback _ (T.found hc' (T.lt (T.poses hc' .swapped)) hw)

theorem found_vars (hc : P x (.vars v w) s) (hv : s.find v = (a, s1)) (hw : s1.find w = (b, s2)) :
    ∃ x', P x' (.vars a b) s2 ∧ s2.root a = a ∧ s2.root b = b ∧ ∀ o, E x' s2 o → E x s o := by
  obtain ⟨rfl, rfl, -, hal, -, -, hra, hrb⟩ :=
    find_both (T.forest hc) (T.lt hc) (T.lt (T.poses hc .swapped)) hv hw
  obtain ⟨x', hkeep, hback⟩ := T.next (T.found_both hc hv hw)
  have hroots := T.poses (hkeep _ hc) .rootVars
  rw [hal.root, hal.root] at hroots
  exact ⟨x', hroots, hra, hrb, hback⟩

end Tracker

variable (hR : ∀ {x c s o}, R c s o → P x c s → E x s o)

include hR

variable {ps : List (Ty × Ty)}

theorem Each.tracked (h : Each R ps s o) (hs : E x s (.unified s))
    (hps : ∀ q ∈ ps, P x (.types q.1 q.2) s) : E x s o := by
  induction h generalizing x with
  | nil => exact hs
  | @cons l r ps s s1 o h _ ih =>
    obtain ⟨x1, hkeep, hback⟩ := T.next (hR h (hps (l, r) (by simp)))
    exact hback _ (ih (T.refl (hkeep _ (hps (l, r) (by simp)))) fun q hq =>
      hkeep _ (hps q (by simp [hq])))
  | @failed l r ps s s1 m h => exact hR h (hps (l, r) (by simp))

/-- Each of some pairs is compared after those before it. -/
theorem Each.before {before after : List (Ty × Ty)} {a b : Ty}
    (hps : ∀ q ∈ ps, P x (.types q.1 q.2) s) (heq : ps = before ++ (a, b) :: after)
    (h : Each R before s (.unified s')) :
    ∃ x', P x' (.types a b) s' ∧ ∀ o, E x' s' o → E x s o := by
  subst heq
  have hab := hps (a, b) (by simp)
  obtain ⟨x', hkeep, hback⟩ := T.next (h.tracked T hR (T.refl hab) fun q hq =>
    hps q (by simp [hq]))
  exact ⟨x', hkeep _ hab, hback⟩

theorem Invokes.tracked (h : Invokes R c s c' s') (hc : P x c s) :
    ∃ x', P x' c' s' ∧ ∀ o, E x' s' o → E x s o := by
  cases h with
  | varVar => exact ⟨x, T.poses hc .varVar, fun _ h => h⟩
  | varLeft ht => exact ⟨x, T.poses hc (.varLeft ht), fun _ h => h⟩
  | varRight ht => exact ⟨x, T.poses hc (.varRight ht), fun _ h => h⟩
  | noVar hl hr => exact ⟨x, T.poses hc (.noVar hl hr), fun _ h => h⟩
  | join hv hw _ ha hb =>
    obtain ⟨x', hroots, _, _, hback⟩ := T.found_vars hc hv hw
    exact ⟨x', T.poses hroots (.join ha hb), hback⟩
  | bound hv ha =>
    obtain ⟨x', hroot, _, hback⟩ := T.found_var hc hv
    exact ⟨x', T.poses hroot (.bound ha), hback⟩
  | head hl hr _ => exact ⟨x, T.poses hc (.head hl hr), fun _ h => h⟩
  | operand hl hr heq hbefore =>
    exact hbefore.before T hR (fun q hq => T.poses hc (.operand hl hr hq)) heq
  | record hl hr hL hR =>
    obtain ⟨hrowL, hrowR, hs⟩ := gather_spec (T.forest hc).linksEnd hL hR
    obtain ⟨x', hkeep, hback⟩ := T.relinked hc hs
    exact ⟨x', hkeep _ (T.poses hc (.record hl hr hrowL hrowR)), hback⟩
  | field heq hbefore => exact hbefore.before T hR (fun q hq => T.poses hc (.field hq)) heq
  | tail hshared hends =>
    obtain ⟨x1, hkeep, hback⟩ := T.next (hshared.tracked T hR (T.refl hc) fun q hq =>
      T.poses hc (.field hq))
    obtain ⟨x2, hkeep', hback'⟩ := T.relinked (hkeep _ hc) (tailStore_relinked ..)
    exact ⟨x2, T.poses (hkeep' _ (hkeep _ hc)) (.tail hends), fun o ho => hback o (hback' o ho)⟩
  | restLeft hf =>
    cases hf
    obtain ⟨x', hleft, _, hback⟩ := T.rest hc
    exact ⟨x', hleft, hback⟩
  | restRight hf h =>
    cases hf
    obtain ⟨x1, hleft, hright, hback⟩ := T.rest hc
    obtain ⟨x2, hkeep, hback'⟩ := T.next (hR h hleft)
    exact ⟨x2, hkeep _ hright, fun o ho => hback o (hback' o ho)⟩

/-- A call ends as the last call that it makes. -/
theorem Invokes.last (h : Invokes R c s c' s') (hend : R c' s' o) (hc : P x c s) : E x s o := by
  obtain ⟨x', hc', hback⟩ := h.tracked T hR hc
  exact hback o (hR hend hc')

theorem RootsRule.tracked {a b : Var} (h : RootsRule g R a b s o) (hc : P x (.vars a b) s)
    (hra : s.root a = a) (hrb : s.root b = b) : E x s o := by
  have hswap := T.poses hc .swapped
  have hadopt : ∀ {a b : Var} {k : Nat} {rank : Rank} {hint : Option String} {t : Ty} {o : Outcome},
      P x (.vars a b) s → s.root a = a → s.root b = b → a ≠ b → s.content a = .unbound rank hint →
      s.content b = .bound t → s.adopt k a rank t (fun s => s.link a b) = o → o ≠ .outOfFuel →
      E x s o := by
    intro a b k rank hint t o hc hra hrb hab hca hcb h ho
    have hs := (T.forest hc).linksEnd
    rcases adopt_spec hs h ho with ⟨_, m, s', rfl, h'⟩ | ⟨hn, s', rfl, h'⟩
    · exact T.poison hc (T.lt hc) (T.failed hc h')
    · obtain ⟨x', hkeep, hback⟩ := T.relinked hc h'
      exact hback _ (T.adopt (hkeep _ hc) ((h'.root hs a).trans hra) ((h'.root hs b).trans hrb) hab
        ((h'.content hs a).trans hca) ((h'.content hs b).trans hcb) (by rwa [h'.reach hs]))
  cases h with
  | same => exact T.refl hc
  | poisonedLeft hab hca => exact T.under hswap hrb hra hab.symm hca
  | poisonedRight hab _ hcb => exact T.under hc hra hrb hab hcb
  | merge hab hca hcb => exact T.merge hc hra hrb hab hca hcb
  | adoptLeft hab hca hcb h ho => exact hadopt hc hra hrb hab hca hcb h ho
  | adoptRight hab hca hcb h ho => exact hadopt hswap hrb hra hab.symm hcb hca h ho
  | join hab hca hcb h hfa hfb hguard =>
    have hterms := hR h (T.poses hc (.join hca hcb))
    obtain ⟨x1, hkeep, hback⟩ := T.next hterms
    have hc1 := hkeep _ hc
    have hfound := hback _ (T.found_both hc1 hfa hfb)
    obtain ⟨rfl, rfl, hf, hal, -⟩ :=
      find_both (T.forest hc1) (T.lt hc1) (T.lt (T.poses hc1 .swapped)) hfa hfb
    rw [← hal.root, ← hal.root] at hguard ⊢
    split
    · exact hfound
    · rename_i hne
      exact T.join hc hca hcb h hfound hf hal hne (hguard hne)
  | joinFailed hab hca hcb h =>
    exact T.poison hc (T.lt hswap) (T.poison hc (T.lt hc) (hR h (T.poses hc (.join hca hcb))))

theorem Rule.tracked (h : Rule g R c s o) (hc : P x c s) : E x s o := by
  cases h with
  | varVar h => exact Invokes.varVar.last T hR h hc
  | varLeft ht h => exact (Invokes.varLeft ht).last T hR h hc
  | varRight ht h => exact (Invokes.varRight ht).last T hR h hc
  | noVar hl hr h => exact (Invokes.noVar hl hr).last T hR h hc
  | vars hv hw h =>
    obtain ⟨x', hroots, hra, hrb, hback⟩ := T.found_vars hc hv hw
    exact hback o (h.tracked T hR hroots hra hrb)
  | poisoned hv _ => exact T.found hc (T.lt' hc) hv
  | bind hv hca h ho =>
    obtain ⟨x', hroot, hra, hback⟩ := T.found_var hc hv
    refine hback o ?_
    have hs := (T.forest hroot).linksEnd
    rcases adopt_spec hs h ho with ⟨_, m, s', rfl, h'⟩ | ⟨hn, s', rfl, h'⟩
    · exact T.poison hroot (T.lt' hroot) (T.failed hroot h')
    · obtain ⟨x', hkeep, hback⟩ := T.relinked hroot h'
      exact hback _ (T.bind (hkeep _ hroot) ((h'.root hs _).trans hra)
        ((h'.content hs _).trans hca) (by rwa [h'.reach hs]))
  | @bound side v a t u s s1 o hv hca h =>
    have hend := (Invokes.bound hv hca).last T hR h hc
    obtain ⟨rfl, -⟩ := find_spec (T.forest hc) (T.lt' hc) hv
    cases o with
    | failed m s2 => exact T.poison hc ((T.forest hc).root_lt (T.lt' hc)) hend
    | unified _ => exact hend
    | outOfFuel => exact hend
  | stuckLeft _ h ho =>
    obtain ⟨m, s', rfl, h'⟩ := failWith_spec (T.forest hc).linksEnd h ho
    exact T.failed hc h'
  | stuckRight _ _ h ho =>
    obtain ⟨m, s', rfl, h'⟩ := failWith_spec (T.forest hc).linksEnd h ho
    exact T.failed hc h'
  | settled hl hr h =>
    have hoperands := fun q hq => T.poses hc (.operand (q := q) hl hr hq)
    cases h with
    | var hvar h => exact (Invokes.head hl hr hvar).last T hR h hc
    | func h => exact h.tracked T hR (T.refl hc) hoperands
    | app hlen h =>
      rw [operands, if_pos ⟨rfl, hlen⟩] at hoperands
      exact h.tracked T hR (T.refl hc) hoperands
    | record hrowL hrowR h => exact (Invokes.record hl hr hrowL hrowR).last T hR h hc
    | clash _ h ho =>
      obtain ⟨m, s', rfl, h'⟩ := failWith_spec (T.forest hc).linksEnd h ho
      exact T.failed hc h'
  | rows hshared h =>
    have heach := hshared.tracked T hR (T.refl hc) fun q hq => T.poses hc (.field hq)
    cases h with
    | spoiled | matched => exact heach
    | taken _ _ _ hrank =>
      obtain ⟨x', hkeep, hback⟩ := T.next heach
      exact hback _ (T.looked (hkeep _ hc) (restRank_spec hrank).2)
    | mismatch _ h ho =>
      obtain ⟨x', hkeep, hback⟩ := T.next heach
      obtain ⟨m, s', rfl, h'⟩ := failWith_spec (T.forest (hkeep _ hc)).linksEnd h ho
      exact hback _ (T.failed (hkeep _ hc) h')
    | openLeft hun hv hw h =>
      exact (Invokes.openLeft hshared hun hv hw).last T hR h hc
    | openRight hun hv hw h =>
      exact (Invokes.openRight hshared hun hv hw).last T hR h hc
    | openBoth hvw hv hw hr h =>
      exact (Invokes.openBoth hshared hvw hv hw hr).last T hR h hc
  | rowsFailed hshared =>
    exact hshared.tracked T hR (T.refl hc) fun q hq => T.poses hc (.field hq)
  | tails hf h h' => exact (Invokes.restRight hf h).last T hR h' hc
  | tailsFailed hf h => exact (Invokes.restLeft hf).last T hR h hc

end Tracking

end Store
end TypeSolver
