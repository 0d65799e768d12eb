import TypeSolver.Proofs.Lookups

/-!
# TypeSolver.Proofs.Rules

The rules of unification, without fuel. `Rule g R c s o` says that the call `c` on the store `s`
ends with `o` if the calls that it makes end as `R` says; there is one rule for each branch of
the unifier. `rule_of_run` reads a rule off a call that was made, and `Completes.of_rule` is the
converse: what the rules derive, the unifier returns with enough fuel.

Two steps of the unifier are taken without a check, and a `Guard` names them, so that runs can be
told apart by what happened there: putting a bound class under another, and leaving the rest of
two rows as it is.
-/

namespace TypeSolver
namespace Store

/-- A call of one of the functions that make up the unifier. -/
inductive Call where
  | types (l r : Ty)
  | vars (v w : Var)
  | var (side : Side) (v : Var) (t : Ty)
  | terms (l r : Ty)
  | rows (rowL rowR : Row) (l r : Ty)
  | tails (v w : Var) (rank : Rank) (onlyLeft onlyRight : List (String × Ty))

def Call.run (fuel : Nat) : Call → Store → Outcome
  | .types l r => unify fuel l r
  | .vars v w => unifyVars fuel v w
  | .var side v t => unifyVar fuel side v t
  | .terms l r => unifyTerms fuel l r
  | .rows rowL rowR l r => unifyRows fuel rowL rowR l r
  | .tails v w rank onlyLeft onlyRight => openTails fuel v w rank onlyLeft onlyRight

/-- What is asked of the two steps that the unifier does not check. -/
structure Guard where
  /-- In this store, the class of the first root is put under the second. -/
  join : Store → Var → Var → Prop
  /-- In this store, what follows the shared fields of two records is not compared. -/
  skip : Store → Ty → Ty → Prop

def Guard.any : Guard := ⟨fun _ _ _ => True, fun _ _ _ => True⟩

/-! ## The rules -/

section Rules

variable (g : Guard) (R : Call → Store → Outcome → Prop)

/-- Pairs of types, from left to right, up to the first failure. -/
inductive Each : List (Ty × Ty) → Store → Outcome → Prop where
  | nil {s : Store} : Each [] s (.unified s)
  | cons {l r : Ty} {ps : List (Ty × Ty)} {s s' : Store} {o : Outcome} :
      R (.types l r) s (.unified s') → Each ps s' o → Each ((l, r) :: ps) s o
  | failed {l r : Ty} {ps : List (Ty × Ty)} {s s' : Store} {m : Mismatch} :
      R (.types l r) s (.failed m s') → Each ((l, r) :: ps) s (.failed m s')

/-- How the classes of the roots `a` and `b` become one. -/
inductive RootsRule (a b : Var) (s : Store) : Outcome → Prop where
  | same : a = b → RootsRule a b s (.unified s)
  | poisonedLeft : a ≠ b → s.content a = .poisoned → RootsRule a b s (.unified (s.link b a))
  | poisonedRight : a ≠ b → s.content a ≠ .poisoned → s.content b = .poisoned →
      RootsRule a b s (.unified (s.link a b))
  | merge {rankA rankB : Rank} {hintA hintB : Option String} : a ≠ b →
      s.content a = .unbound rankA hintA → s.content b = .unbound rankB hintB →
      RootsRule a b s
        (.unified ((s.link a b).put b (.unbound (min rankA rankB) (hintB <|> hintA))))
  | adoptLeft {k : Nat} {rank : Rank} {hint : Option String} {t : Ty} {o : Outcome} : a ≠ b →
      s.content a = .unbound rank hint → s.content b = .bound t →
      s.adopt k a rank t (fun s => s.link a b) = o → o ≠ .outOfFuel → RootsRule a b s o
  | adoptRight {k : Nat} {rank : Rank} {hint : Option String} {t : Ty} {o : Outcome} : a ≠ b →
      s.content a = .bound t → s.content b = .unbound rank hint →
      s.adopt k b rank t (fun s => s.link b a) = o → o ≠ .outOfFuel → RootsRule a b s o
  | join {l r : Ty} {s1 s2 s3 : Store} {a' b' : Var} : a ≠ b →
      s.content a = .bound l → s.content b = .bound r → R (.terms l r) s (.unified s1) →
      s1.find a = (a', s2) → s2.find b = (b', s3) → (a' ≠ b' → g.join s3 a' b') →
      RootsRule a b s (.unified (if a' = b' then s3 else s3.link a' b'))
  | joinFailed {l r : Ty} {s1 : Store} {m : Mismatch} : a ≠ b →
      s.content a = .bound l → s.content b = .bound r → R (.terms l r) s (.failed m s1) →
      RootsRule a b s (.failed m ((s1.poison a).poison b))

/-- Two settled heads of which neither is a variable, and which differ. -/
def clash : Ty → Ty → Bool
  | .var _, _ => false
  | _, .var _ => false
  | .func _ _, .func _ _ => false
  | .app f as, .app g bs => !decide (f = g ∧ as.length = bs.length)
  | .record _ _, .record _ _ => false
  | _, _ => true

/-- How two types with settled heads are made equal. -/
inductive HeadsRule : Ty → Ty → Store → Outcome → Prop where
  | var {l r : Ty} {s : Store} {o : Outcome} : l.isVar ∨ r.isVar → R (.types l r) s o →
      HeadsRule l r s o
  | func {a b c d : Ty} {s : Store} {o : Outcome} : Each R [(a, c), (b, d)] s o →
      HeadsRule (.func a b) (.func c d) s o
  | app {f : String} {as bs : List Ty} {s : Store} {o : Outcome} : as.length = bs.length →
      Each R (as.zip bs) s o → HeadsRule (.app f as) (.app f bs) s o
  | record {fs gs : List (String × Ty)} {ext ext' : Option Var} {k : Nat} {rowL rowR : Row}
      {s s1 s2 : Store} {o : Outcome} : s.gather k fs ext = some (rowL, s1) →
      s1.gather k gs ext' = some (rowR, s2) →
      R (.rows rowL rowR (.record fs ext) (.record gs ext')) s2 o →
      HeadsRule (.record fs ext) (.record gs ext') s o
  | clash {l r : Ty} {k : Nat} {s : Store} {o : Outcome} : clash l r = true →
      s.shapeMismatch k l r = o → o ≠ .outOfFuel → HeadsRule l r s o

/-- The fields that stand against two rows, if they cannot be made equal: those that only one of
them has, where the other is not open to more. -/
def unmatched (rowL rowR : Row) : Option (List (String × Ty) × List (String × Ty)) :=
  let onlyLeft := Assoc.without rowL.fields rowR.fields
  let onlyRight := Assoc.without rowR.fields rowL.fields
  match rowL.tail, rowR.tail with
  | .closed, .closed =>
    if onlyLeft.isEmpty && onlyRight.isEmpty then none else some (onlyLeft, onlyRight)
  | .opened _, .closed => if onlyLeft.isEmpty then none else some (onlyLeft, [])
  | .closed, .opened _ => if onlyRight.isEmpty then none else some ([], onlyRight)
  | .opened v, .opened w =>
    if v = w then
      if onlyLeft.isEmpty && onlyRight.isEmpty then none else some (onlyLeft, onlyRight)
    else none
  | _, _ => none

/-- How the tails of two rows are made equal, after the fields they share. -/
inductive EndsRule (rowL rowR : Row) (l r : Ty) (s : Store) : Outcome → Prop where
  | spoiled : rowL.tail = .spoiled ∨ rowR.tail = .spoiled → g.skip s l r →
      EndsRule rowL rowR l r s (.unified s)
  | mismatch {k : Nat} {left right : List (String × Ty)} {o : Outcome} :
      unmatched rowL rowR = some (left, right) → s.fieldsMismatch k left right l r = o →
      o ≠ .outOfFuel → EndsRule rowL rowR l r s o
  | matched : unmatched rowL rowR = none →
      (rowL.tail = .closed ∧ rowR.tail = .closed ∨
        ∃ v, rowL.tail = .opened v ∧ rowR.tail = .opened v) →
      EndsRule rowL rowR l r s (.unified s)
  | openLeft {v : Var} {o : Outcome} : unmatched rowL rowR = none → rowL.tail = .opened v →
      rowR.tail = .closed →
      R (.var .left v (.record (Assoc.without rowR.fields rowL.fields) none)) s o →
      EndsRule rowL rowR l r s o
  | openRight {w : Var} {o : Outcome} : unmatched rowL rowR = none → rowL.tail = .closed →
      rowR.tail = .opened w →
      R (.var .right w (.record (Assoc.without rowL.fields rowR.fields) none)) s o →
      EndsRule rowL rowR l r s o
  | taken {v w : Var} {s' : Store} : v ≠ w → rowL.tail = .opened v → rowR.tail = .opened w →
      s.restRank v w = (none, s') → g.skip s l r → EndsRule rowL rowR l r s (.unified s')
  | openBoth {v w : Var} {rank : Rank} {s' : Store} {o : Outcome} : v ≠ w →
      rowL.tail = .opened v → rowR.tail = .opened w → s.restRank v w = (some rank, s') →
      R (.tails v w rank (Assoc.without rowL.fields rowR.fields)
        (Assoc.without rowR.fields rowL.fields)) s' o → EndsRule rowL rowR l r s o

def Call.against : Side → Ty → Ty → Call
  | .left, u, t => .terms u t
  | .right, u, t => .terms t u

/-- The call ends with this outcome, if the calls that it makes end as `R` says. -/
inductive Rule : Call → Store → Outcome → Prop where
  | varVar {v w : Var} {s : Store} {o : Outcome} : R (.vars v w) s o →
      Rule (.types (.var v) (.var w)) s o
  | varLeft {v : Var} {t : Ty} {s : Store} {o : Outcome} : t.isVar = false →
      R (.var .left v t) s o → Rule (.types (.var v) t) s o
  | varRight {w : Var} {t : Ty} {s : Store} {o : Outcome} : t.isVar = false →
      R (.var .right w t) s o → Rule (.types t (.var w)) s o
  | noVar {l r : Ty} {s : Store} {o : Outcome} : l.isVar = false → r.isVar = false →
      R (.terms l r) s o → Rule (.types l r) s o
  | vars {v w a b : Var} {s s1 s2 : Store} {o : Outcome} : s.find v = (a, s1) →
      s1.find w = (b, s2) → RootsRule g R a b s2 o → Rule (.vars v w) s o
  | poisoned {side : Side} {v a : Var} {t : Ty} {s s1 : Store} : s.find v = (a, s1) →
      s1.content a = .poisoned → Rule (.var side v t) s (.unified s1)
  | bind {side : Side} {v a : Var} {t : Ty} {k : Nat} {rank : Rank} {hint : Option String}
      {s s1 : Store} {o : Outcome} : s.find v = (a, s1) → s1.content a = .unbound rank hint →
      s1.adopt k a rank t (fun s => s.put a (.bound t)) = o → o ≠ .outOfFuel →
      Rule (.var side v t) s o
  | bound {side : Side} {v a : Var} {t u : Ty} {s s1 : Store} {o : Outcome} :
      s.find v = (a, s1) → s1.content a = .bound u → R (.against side u t) s1 o →
      Rule (.var side v t) s (o.onFailure fun s => s.poison a)
  | stuckLeft {l r l' : Ty} {k : Nat} {s : Store} {o : Outcome} :
      s.aliases.head k l = some (.stuck l') → s.shapeMismatch k l' l' = o → o ≠ .outOfFuel →
      Rule (.terms l r) s o
  | stuckRight {l r l' r' : Ty} {k : Nat} {s : Store} {o : Outcome} :
      s.aliases.head k l = some (.settled l') → s.aliases.head k r = some (.stuck r') →
      s.shapeMismatch k r' r' = o → o ≠ .outOfFuel → Rule (.terms l r) s o
  | settled {l r l' r' : Ty} {k : Nat} {s : Store} {o : Outcome} :
      s.aliases.head k l = some (.settled l') → s.aliases.head k r = some (.settled r') →
      HeadsRule R l' r' s o → Rule (.terms l r) s o
  | rows {rowL rowR : Row} {l r : Ty} {s s1 : Store} {o : Outcome} :
      Each R (Assoc.shared rowL.fields rowR.fields) s (.unified s1) →
      EndsRule g R rowL rowR l r s1 o → Rule (.rows rowL rowR l r) s o
  | rowsFailed {rowL rowR : Row} {l r : Ty} {s s1 : Store} {m : Mismatch} :
      Each R (Assoc.shared rowL.fields rowR.fields) s (.failed m s1) →
      Rule (.rows rowL rowR l r) s (.failed m s1)
  | tails {v w rest : Var} {rank : Rank} {onlyLeft onlyRight : List (String × Ty)}
      {s s1 s2 : Store} {o : Outcome} : s.fresh rank none = (rest, s1) →
      R (.var .left v (.record onlyRight (some rest))) s1 (.unified s2) →
      R (.var .right w (.record onlyLeft (some rest))) s2 o →
      Rule (.tails v w rank onlyLeft onlyRight) s o
  | tailsFailed {v w rest : Var} {rank : Rank} {onlyLeft onlyRight : List (String × Ty)}
      {s s1 s2 : Store} {m : Mismatch} : s.fresh rank none = (rest, s1) →
      R (.var .left v (.record onlyRight (some rest))) s1 (.failed m s2) →
      Rule (.tails v w rank onlyLeft onlyRight) s (.failed m s2)

end Rules

/-! ## From runs to rules -/

/-- With this fuel the call ended, and not for lack of fuel. -/
def Ran (n : Nat) (c : Call) (s : Store) (o : Outcome) : Prop := c.run n s = o ∧ o ≠ .outOfFuel

variable {o : Outcome} {k n k' : Nat} {ps : List (Ty × Ty)} {s s1 s2 : Store} {a b v w : Var}
  {l r l' r' : Ty} {row rowL rowR : Row} {fields : List (String × Ty)} {ext : Option Var}
  {g : Guard}

theorem andThen_ne_outOfFuel {x : Outcome} {f : Store → Outcome} (h : x.andThen f = o)
    (ho : o ≠ .outOfFuel) :
    (∃ s, x = .unified s ∧ f s = o) ∨ ∃ m s, x = .failed m s ∧ o = .failed m s := by
  cases x with
  | unified s => exact .inl ⟨s, rfl, h⟩
  | failed m s => exact .inr ⟨m, s, rfl, h.symm⟩
  | outOfFuel => exact absurd h.symm ho

theorem each_of_run (h : Outcome.each (unify n) ps s = o) (ho : o ≠ .outOfFuel) :
    Each (Ran n) ps s o := by
  induction ps generalizing s with
  | nil => subst h; exact .nil
  | cons p ps ih =>
    rcases andThen_ne_outOfFuel h ho with ⟨s', hs', h⟩ | ⟨m, s', hs', rfl⟩
    · exact .cons ⟨hs', by simp⟩ (ih h)
    · exact .failed ⟨hs', by simp⟩

theorem each_pair (f : Ty → Ty → Store → Outcome) (a b c d : Ty) (s : Store) :
    Outcome.each f [(a, c), (b, d)] s = (f a c s).andThen (f b d) := by
  simp only [Outcome.each]
  congr 1
  funext s'
  cases f b d s' <;> rfl

theorem roots_of_run (hv : s.find v = (a, s1)) (hw : s1.find w = (b, s2))
    (h : unifyVars (n + 1) v w s = o) (ho : o ≠ .outOfFuel) : RootsRule .any (Ran n) a b s2 o := by
  rw [unifyVars] at h
  simp only [hv, hw] at h
  split at h
  · rename_i hab; subst h; exact .same hab
  rename_i hab
  split at h
  · rename_i ha; subst h; exact .poisonedLeft hab ha
  · rename_i hb hna; subst h; exact .poisonedRight hab (fun h => hna h) hb
  · rename_i ha hb; subst h; exact .merge hab ha hb
  · rename_i ha hb; exact .adoptLeft hab ha hb h ho
  · rename_i ha hb; exact .adoptRight hab ha hb h ho
  · rename_i l r ha hb
    cases hterms : unifyTerms n l r s2 with
    | unified s3 =>
      simp only [hterms] at h
      subst h
      exact .join hab ha hb ⟨hterms, by simp⟩ rfl rfl fun _ => trivial
    | failed m s3 =>
      simp only [hterms, Outcome.onFailure] at h
      subst h
      exact .joinFailed hab ha hb ⟨hterms, by simp⟩
    | outOfFuel => simp only [hterms, Outcome.onFailure] at h; exact absurd h.symm ho

theorem heads_of_run (hl : s.aliases.head n l = some (.settled l'))
    (hr : s.aliases.head n r = some (.settled r')) (h : unifyTerms (n + 1) l r s = o)
    (ho : o ≠ .outOfFuel) : HeadsRule (Ran n) l' r' s o := by
  rw [unifyTerms] at h
  simp only [hl, hr] at h
  split at h
  · exact .var (.inl rfl) ⟨h, ho⟩
  · exact .var (.inr rfl) ⟨h, ho⟩
  · rw [← each_pair] at h
    exact .func (each_of_run h ho)
  · split at h
    · rename_i heq
      obtain ⟨rfl, hlen⟩ := heq
      exact .app hlen (each_of_run h ho)
    · rename_i hne
      exact .clash (by simp [clash, hne]) h ho
  · split at h
    · exact absurd h.symm ho
    · rename_i hrowL
      split at h
      · exact absurd h.symm ho
      · rename_i hrowR
        exact .record hrowL hrowR ⟨h, ho⟩
  · refine .clash ?_ h ho
    cases l' <;> cases r' <;> grind [clash]

theorem rule_of_terms (h : unifyTerms (n + 1) l r s = o) (ho : o ≠ .outOfFuel) :
    Rule .any (Ran n) (.terms l r) s o := by
  have hrun := h
  rw [unifyTerms] at h
  split at h
  · exact absurd h.symm ho
  · rename_i hl; exact .stuckLeft hl h ho
  · rename_i hl
    split at h
    · exact absurd h.symm ho
    · rename_i hr; exact .stuckRight hl hr h ho
    · rename_i hr; exact .settled hl hr (heads_of_run hl hr hrun ho)

/-- What is done about two rows after the fields that they share. -/
def ends (n : Nat) (rowL rowR : Row) (l r : Ty) (s : Store) : Outcome :=
  match unmatched rowL rowR, rowL.tail, rowR.tail with
  | some (left, right), _, _ => s.fieldsMismatch n left right l r
  | none, .opened v, .closed =>
    unifyVar n .left v (.record (Assoc.without rowR.fields rowL.fields) none) s
  | none, .closed, .opened w =>
    unifyVar n .right w (.record (Assoc.without rowL.fields rowR.fields) none) s
  | none, .opened v, .opened w =>
    if v = w then .unified s
    else
      match s.restRank v w with
      | (none, s) => .unified s
      | (some rank, s) => openTails n v w rank (Assoc.without rowL.fields rowR.fields)
          (Assoc.without rowR.fields rowL.fields) s
  | none, _, _ => .unified s

theorem unifyRows_succ : unifyRows (n + 1) rowL rowR l r s =
    (Outcome.each (unify n) (Assoc.shared rowL.fields rowR.fields) s).andThen
      (ends n rowL rowR l r) := by
  rw [unifyRows]
  congr 1
  funext s
  obtain ⟨fs, tailL⟩ := rowL
  obtain ⟨gs, tailR⟩ := rowR
  cases tailL with
  | opened v =>
    cases tailR with
    | opened w =>
      by_cases hvw : v = w
      · simp only [ends, unmatched, if_pos hvw]
        split
        · exact (if_pos hvw).symm
        · rfl
      · rcases hrest : s.restRank v w with ⟨_ | rank, s'⟩ <;>
          simp only [ends, unmatched, if_neg hvw, hrest]
    | closed => simp only [ends, unmatched]; split <;> rfl
    | spoiled => rfl
  | _ => cases tailR <;> simp only [ends, unmatched] <;> split <;> rfl

theorem ends_of_run (h : ends n rowL rowR l r s = o) (ho : o ≠ .outOfFuel) :
    EndsRule .any (Ran n) rowL rowR l r s o := by
  rw [ends] at h
  split at h
  · rename_i hun; exact .mismatch hun h ho
  · rename_i hun hv hw; exact .openLeft hun hv hw ⟨h, ho⟩
  · rename_i hun hv hw; exact .openRight hun hv hw ⟨h, ho⟩
  · rename_i hun hv hw
    split at h
    · rename_i hvw; subst h; exact .matched hun (.inr ⟨_, hv, hvw ▸ hw⟩)
    · rename_i hvw
      split at h
      · rename_i hrank; subst h; exact .taken hvw hv hw hrank trivial
      · rename_i hrank; exact .openBoth hvw hv hw hrank ⟨h, ho⟩
  · rename_i hun hleft hright hboth
    subst h
    cases hv : rowL.tail with
    | spoiled => exact .spoiled (.inl hv) trivial
    | closed =>
      cases hw : rowR.tail with
      | spoiled => exact .spoiled (.inr hw) trivial
      | closed => exact .matched hun (.inl ⟨hv, hw⟩)
      | opened w => exact (hright w hv hw).elim
    | opened v =>
      cases hw : rowR.tail with
      | spoiled => exact .spoiled (.inr hw) trivial
      | closed => exact (hleft v hv hw).elim
      | opened w => exact (hboth v w hv hw).elim

/-- A call that was made ended by one of the rules. -/
theorem rule_of_run {c : Call} (h : Ran (n + 1) c s o) : Rule .any (Ran n) c s o := by
  obtain ⟨h, ho⟩ := h
  cases c with
  | types l r =>
    cases l with
    | var v =>
      cases r with
      | var w => exact .varVar ⟨h, ho⟩
      | _ => exact .varLeft rfl ⟨h, ho⟩
    | _ =>
      cases r with
      | var w => exact .varRight rfl ⟨h, ho⟩
      | _ => exact .noVar rfl rfl ⟨h, ho⟩
  | vars v w => exact .vars rfl rfl (roots_of_run rfl rfl h ho)
  | var side v t =>
    change unifyVar (n + 1) side v t s = o at h
    rw [unifyVar] at h
    split at h
    rename_i r s1 hfind
    split at h <;> rename_i hc
    · subst h; exact .poisoned hfind hc
    · exact .bind hfind hc h ho
    · have hne : ∀ x : Outcome, x.onFailure (fun s => s.poison r) = o → x ≠ .outOfFuel := by
        rintro _ rfl rfl; exact ho rfl
      cases side with
      | left => subst h; exact .bound hfind hc ⟨rfl, hne _ rfl⟩
      | right => subst h; exact .bound hfind hc ⟨rfl, hne _ rfl⟩
  | terms l r => exact rule_of_terms h ho
  | rows rowL rowR l r =>
    rw [Call.run, unifyRows_succ] at h
    rcases andThen_ne_outOfFuel h ho with ⟨s1, hs, h⟩ | ⟨m, s1, hs, rfl⟩
    · exact .rows (each_of_run hs (by simp)) (ends_of_run h ho)
    · exact .rowsFailed (each_of_run hs (by simp))
  | tails v w rank onlyLeft onlyRight =>
    change openTails (n + 1) v w rank onlyLeft onlyRight s = o at h
    rw [openTails] at h
    split at h
    rename_i rest s1 hfresh
    rcases andThen_ne_outOfFuel h ho with ⟨s2, hs, h⟩ | ⟨m, s2, hs, rfl⟩
    · exact .tails hfresh ⟨hs, by simp⟩ ⟨h, ho⟩
    · exact .tailsFailed hfresh ⟨hs, by simp⟩

/-! ## From rules to runs -/

theorem row_induction {motive : List (String × Ty) → Option Var → Row → Prop}
    (closed : ∀ fields, motive fields none ⟨fields, .closed⟩)
    (opened : ∀ fields v rank hint, s.content v = .unbound rank hint →
      motive fields (some v) ⟨fields, .opened (s.root v)⟩)
    (poisoned : ∀ fields v, s.content v = .poisoned → motive fields (some v) ⟨fields, .spoiled⟩)
    (extended : ∀ k fields v t more rest row, s.content v = .bound t →
      s.aliases.head k t = some (.settled (.record more rest)) →
      motive (Assoc.union fields more) rest row → motive fields (some v) row)
    (spoiled : ∀ k fields v t hd, s.content v = .bound t → s.aliases.head k t = some hd →
      (∀ more rest, hd ≠ .settled (.record more rest)) →
      motive fields (some v) ⟨fields, .spoiled⟩)
    (h : s.row k fields ext = some row) : motive fields ext row := by
  induction k generalizing fields ext with
  | zero => cases ext <;> cases h
  | succ k ih =>
    cases ext with
    | none => cases h; exact closed fields
    | some v =>
      rw [Store.row] at h
      cases hc : s.content v with
      | unbound rank hint => simp only [hc] at h; cases h; exact opened fields v rank hint hc
      | poisoned => simp only [hc] at h; cases h; exact poisoned fields v hc
      | bound t =>
        simp only [hc] at h
        cases hd : s.aliases.head k t with
        | none => simp only [hd] at h; cases h
        | some hd' =>
          rw [hd] at h
          cases hd' with
          | stuck u =>
            obtain ⟨_, _, rfl⟩ := Option.map_eq_some_iff.mp h
            exact spoiled k fields v t _ hc hd (by simp)
          | settled u =>
            cases u with
            | record more rest => exact extended k fields v t more rest row hc hd (ih h)
            | _ => cases h; exact spoiled k fields v t _ hc hd (by simp)

theorem failWith_mono (hk : k ≤ k') {mismatch : NamedType → NamedType → Mismatch}
    (h : s.failWith k l r mismatch = o) (ho : o ≠ .outOfFuel) :
    s.failWith k' l r mismatch = o := by
  rw [failWith] at h ⊢
  split at h
  · exact absurd h.symm ho
  · rename_i hl
    split at h
    · exact absurd h.symm ho
    · rename_i hr
      simp only [takeSnapshot_mono hk hl, takeSnapshot_mono hk hr]
      exact h

theorem adopt_mono (hk : k ≤ k') {rank : Rank} {t : Ty} {become : Store → Store}
    (h : s.adopt k a rank t become = o) (ho : o ≠ .outOfFuel) : s.adopt k' a rank t become = o := by
  rw [adopt] at h ⊢
  split at h
  · rename_i s1 _
    have hne : s1.failWith k (.var a) t .occurs ≠ .outOfFuel := by
      intro hfuel
      rw [hfuel] at h
      exact ho h.symm
    rw [← h]
    exact congrArg (Outcome.onFailure · _) (failWith_mono hk rfl hne)
  · exact h

def Completes (c : Call) (s : Store) (o : Outcome) : Prop := EnoughFuel fun k => c.run k s = o

theorem each_completes (h : Each Completes ps s o) :
    EnoughFuel fun k => Outcome.each (unify k) ps s = o := by
  induction h with
  | nil => exact .intro fun k => rfl
  | cons hlr _ ih =>
    refine (EnoughFuel.and hlr ih).mono fun k ⟨h, ih⟩ => ?_
    change unify k _ _ _ = _ at h
    rw [Outcome.each, h]
    exact ih
  | failed hlr =>
    refine EnoughFuel.mono hlr fun k h => ?_
    change unify k _ _ _ = _ at h
    rw [Outcome.each, h]
    rfl

theorem roots_completes (hv : s.find v = (a, s1)) (hw : s1.find w = (b, s2))
    (h : RootsRule g Completes a b s2 o) : EnoughFuel fun k => unifyVars (k + 1) v w s = o := by
  cases h with
  | same hab => exact .intro fun k => by simp only [unifyVars, hv, hw, if_pos hab]
  | poisonedLeft hab ha => exact .intro fun k => by simp only [unifyVars, hv, hw, if_neg hab, ha]
  | poisonedRight hab ha hb => exact .intro fun k => by simp only [unifyVars, hv, hw, if_neg hab, hb]
  | merge hab ha hb => exact .intro fun k => by simp only [unifyVars, hv, hw, if_neg hab, ha, hb]
  | @adoptLeft k rank hint t o hab ha hb h ho =>
    refine ⟨k, fun k' hk => ?_⟩
    show unifyVars (k' + 1) v w s = o
    rw [unifyVars]
    simp only [hv, hw, if_neg hab, ha, hb]
    exact adopt_mono hk h ho
  | @adoptRight k rank hint t o hab ha hb h ho =>
    refine ⟨k, fun k' hk => ?_⟩
    show unifyVars (k' + 1) v w s = o
    rw [unifyVars]
    simp only [hv, hw, if_neg hab, ha, hb]
    exact adopt_mono hk h ho
  | join hab ha hb h hfa hfb _ =>
    refine EnoughFuel.mono h fun k h => ?_
    change unifyTerms k _ _ _ = _ at h
    rw [unifyVars]
    simp only [hv, hw, if_neg hab, ha, hb, h, hfa, hfb]
  | joinFailed hab ha hb h =>
    refine EnoughFuel.mono h fun k h => ?_
    change unifyTerms k _ _ _ = _ at h
    rw [unifyVars]
    simp only [hv, hw, if_neg hab, ha, hb, h]
    rfl

theorem heads_completes (hl : s.aliases.head n l = some (.settled l'))
    (hr : s.aliases.head n r = some (.settled r')) (h : HeadsRule Completes l' r' s o) :
    EnoughFuel fun k => unifyTerms (k + 1) l r s = o := by
  have hheads : EnoughFuel fun k => s.aliases.head k l = some (.settled l') ∧
      s.aliases.head k r = some (.settled r') :=
    ⟨n, fun k hk => ⟨AliasTable.head_mono hk hl, AliasTable.head_mono hk hr⟩⟩
  cases h with
  | var hvar h =>
    refine (hheads.and h).mono fun k ⟨⟨hl, hr⟩, h⟩ => ?_
    rw [unifyTerms]
    simp only [hl, hr]
    cases l' <;> cases r' <;> first | exact h | simp [Ty.isVar] at hvar
  | func h =>
    refine (hheads.and (each_completes h)).mono fun k ⟨⟨hl, hr⟩, h⟩ => ?_
    rw [unifyTerms]
    simp only [hl, hr]
    rw [← each_pair]
    exact h
  | app hlen h =>
    refine (hheads.and (each_completes h)).mono fun k ⟨⟨hl, hr⟩, h⟩ => ?_
    rw [unifyTerms]
    simp only [hl, hr]
    rw [if_pos ⟨trivial, hlen⟩]
    exact h
  | @record fs gs ext ext' j rowL rowR s s1 s2 o hrowL hrowR h =>
    have hrows : EnoughFuel fun k => s.gather k fs ext = some (rowL, s1) ∧
        s1.gather k gs ext' = some (rowR, s2) :=
      ⟨j, fun k hk => ⟨gather_mono hk hrowL, gather_mono hk hrowR⟩⟩
    refine ((hheads.and hrows).and h).mono fun k ⟨⟨⟨hl, hr⟩, hrowL, hrowR⟩, h⟩ => ?_
    rw [unifyTerms]
    simp only [hl, hr, hrowL, hrowR]
    exact h
  | @clash l r j s o hclash h ho =>
    have hmis : EnoughFuel fun k => s.shapeMismatch k l' r' = o :=
      ⟨j, fun k hk => failWith_mono hk h ho⟩
    refine (hheads.and hmis).mono fun k ⟨⟨hl, hr⟩, h⟩ => ?_
    rw [unifyTerms]
    cases l' <;> cases r' <;> grind [clash]

theorem ends_completes (h : EndsRule g Completes rowL rowR l r s o) :
    EnoughFuel fun k => ends k rowL rowR l r s = o := by
  cases h with
  | spoiled htail _ =>
    refine .intro fun k => ?_
    obtain ⟨fs, tailL⟩ := rowL
    obtain ⟨gs, tailR⟩ := rowR
    rcases htail with rfl | rfl
    · rfl
    · cases tailL <;> rfl
  | @mismatch j left right o hun h ho =>
    refine ⟨j, fun k hk => ?_⟩
    simp only [ends, hun]
    exact failWith_mono hk h ho
  | matched hun htail =>
    refine .intro fun k => ?_
    rcases htail with ⟨hv, hw⟩ | ⟨v, hv, hw⟩
    · simp only [ends, hun, hv, hw]
    · simp only [ends, hun, hv, hw, if_true]
  | openLeft hun hv hw h =>
    refine EnoughFuel.mono h fun k h => ?_
    simp only [ends, hun, hv, hw]
    exact h
  | openRight hun hv hw h =>
    refine EnoughFuel.mono h fun k h => ?_
    simp only [ends, hun, hv, hw]
    exact h
  | taken hvw hv hw hrank _ =>
    refine .intro fun k => ?_
    have hun : unmatched rowL rowR = none := by simp only [unmatched, hv, hw, if_neg hvw]
    simp only [ends, hun, hv, hw, if_neg hvw, hrank]
  | openBoth hvw hv hw hrank h =>
    refine EnoughFuel.mono h fun k h => ?_
    have hun : unmatched rowL rowR = none := by simp only [unmatched, hv, hw, if_neg hvw]
    simp only [ends, hun, hv, hw, if_neg hvw, hrank]
    exact h

theorem Completes.of_rule {c : Call} (h : Rule g Completes c s o) : Completes c s o := by
  refine .of_succ ?_
  cases h with
  | varVar h => exact h
  | @varLeft v t s o ht h =>
    cases t with
    | var w => cases ht
    | _ => exact h
  | @varRight w t s o ht h =>
    cases t with
    | var v => cases ht
    | _ => exact h
  | @noVar l r s o hl hr h =>
    cases l with
    | var v => cases hl
    | _ =>
      cases r with
      | var w => cases hr
      | _ => exact h
  | vars hv hw h => exact roots_completes hv hw h
  | poisoned hv hc =>
    refine .intro fun k => ?_
    rw [Call.run, unifyVar]
    simp only [hv, hc]
  | @bind side v a t k rank hint s s1 o hv hc h ho =>
    refine ⟨k, fun k' hk => ?_⟩
    show unifyVar (k' + 1) side v t s = o
    rw [unifyVar]
    simp only [hv, hc]
    exact adopt_mono hk h ho
  | @bound side v a t u s s1 o hv hc h =>
    refine EnoughFuel.mono h fun k h => ?_
    rw [Call.run, unifyVar]
    simp only [hv, hc]
    cases side with
    | left => exact congrArg (Outcome.onFailure · _) h
    | right => exact congrArg (Outcome.onFailure · _) h
  | @stuckLeft l r l' k s o hl h ho =>
    refine ⟨k, fun k' hk => ?_⟩
    show unifyTerms (k' + 1) l r s = o
    rw [unifyTerms]
    simp only [AliasTable.head_mono hk hl]
    exact failWith_mono hk h ho
  | @stuckRight l r l' r' k s o hl hr h ho =>
    refine ⟨k, fun k' hk => ?_⟩
    show unifyTerms (k' + 1) l r s = o
    rw [unifyTerms]
    simp only [AliasTable.head_mono hk hl, AliasTable.head_mono hk hr]
    exact failWith_mono hk h ho
  | settled hl hr h => exact heads_completes hl hr h
  | rows hs h =>
    refine ((each_completes hs).and (ends_completes h)).mono fun k ⟨hs, h⟩ => ?_
    rw [Call.run, unifyRows_succ, hs]
    exact h
  | rowsFailed hs =>
    refine (each_completes hs).mono fun k hs => ?_
    rw [Call.run, unifyRows_succ, hs]
    rfl
  | tails hf h h' =>
    refine (EnoughFuel.and h h').mono fun k ⟨h, h'⟩ => ?_
    change unifyVar k _ _ _ _ = _ at h
    rw [Call.run, openTails]
    simp only [hf, h, Outcome.andThen]
    exact h'
  | tailsFailed hf h =>
    refine EnoughFuel.mono h fun k h => ?_
    change unifyVar k _ _ _ _ = _ at h
    rw [Call.run, openTails]
    simp only [hf, h, Outcome.andThen]

end Store
end TypeSolver
