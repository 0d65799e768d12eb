import TypeSolver.Proofs.Frames
import TypeSolver.Proofs.Lifecycle

/-!
# TypeSolver.Proofs.Poison

Classes that were given up. When two variables cannot be made equal, both of their classes are given
up if both were bound; if one was unbound, then it occurs in what the other stands for, and only the
unbound one is given up (`poisoned_of_failed`).

A class that was given up stays so, with one exception. Two bound classes become one after their
types were made equal, and on the way the first of them may have come under a class that was given
up. If this is then put under the second, it stands for a type again. `Guard.lasting` excludes
this step, and nothing else can bring a class back (`Runs.lasts`).
-/

namespace TypeSolver
namespace Store

open Relation

variable {s s' s'' : Store} {v w : Var}

theorem isPoisoned_iff : s.isPoisoned v = true ↔ s.kind v = .poisoned := by
  rw [isPoisoned, kind]
  cases s.content v <;> simp [Content.kind]

/-- No class that was given up goes under one that was not. -/
def Guard.lasting : Guard where
  join s a b := s.kind a = .poisoned → s.kind b = .poisoned
  skip _ _ _ := True

variable {n : Nat} {m : Mismatch} {op : Operation} {ops : List Operation}

/-- What becomes of two roots that cannot be made one. -/
theorem poisoned_of_roots {a b : Var} (hs : s.WellFormed)
    (h : RootsRule .any (Runs .any n) a b s (.failed m s')) (ha : a < s.size) (hb : b < s.size)
    (hra : s.root a = a) (hrb : s.root b = b) (hv : s.root v = a) (hw : s.root w = b) :
    (s'.kind v = .poisoned ↔ s.kind b ≠ .free) ∧ (s'.kind w = .poisoned ↔ s.kind a ≠ .free) := by
  have hoccurs : ∀ {x y v w : Var} {k : Nat} {rank : Rank} {hint : Option String} {t : Ty}
      {become : Store → Store}, x ≠ y → x < s.size → s.root x = x → s.root v = x →
      s.root w = y → s.root y = y → s.content x = .unbound rank hint → s.content y = .bound t →
      s.adopt k x rank t become = .failed m s' →
      (s'.kind v = .poisoned ↔ s.kind y ≠ .free) ∧ (s'.kind w = .poisoned ↔ s.kind x ≠ .free) := by
    intro x y v w k rank hint t become hxy hx hrx hv hw hry hcx hcy hadopt
    have hl := hs.forest.linksEnd
    rcases adopt_spec hl hadopt (by simp) with ⟨_, _, s1, heq, h1⟩ | ⟨_, _, heq, _⟩
    · cases heq
      obtain ⟨_, _, hcon⟩ := poison_view (h1.forest hs.forest) (by rw [h1.size hl]; exact hx)
      have hkw : (s1.poison x).kind w = .bound t := by
        rw [kind, hcon, h1.root hl, h1.root hl, hw, hrx, if_neg (Ne.symm hxy), h1.content hl,
          ← hs.forest.content_root, hw, hcy]
        rfl
      have hkv : (s1.poison x).kind v = .poisoned := by
        rw [kind, hcon, h1.root hl, h1.root hl, hv, hrx, if_pos rfl]
        rfl
      rw [hkw, hkv, kind_eq_bound.mpr hcy, kind_eq_free.mpr ⟨_, _, hcx⟩]
      simp
    · cases heq
  cases h with
  | adoptLeft hab hca hcb hadopt _ => exact hoccurs hab ha hra hv hw hrb hca hcb hadopt
  | adoptRight hab hca hcb hadopt _ =>
    exact (hoccurs (Ne.symm hab) hb hrb hw hv hra hcb hca hadopt).symm
  | @joinFailed l r s1 m hab hca hcb h =>
    have hka := kind_eq_bound.mpr hca
    have hkb := kind_eq_bound.mpr hcb
    have hsteps : Steps .any true s s1 := h.after hs ⟨hs.fits a l hka, hs.fits b r hkb⟩
    have hs1 := hsteps.wellFormed hs
    have hle := hsteps.size_le hs
    have ha1 := Nat.lt_of_lt_of_le ha hle
    obtain ⟨hf, hro, hcon⟩ := poison_view hs1.forest ha1
    have hb2 : b < (s1.poison a).size := by
      rw [poison_size hs1.forest ha1]; exact Nat.lt_of_lt_of_le hb hle
    obtain ⟨_, _, hcon'⟩ := poison_view hf hb2
    have hva : s1.root v = s1.root a := hsteps.root_eq hs (by rw [hv, hra])
    have hwb : s1.root w = s1.root b := hsteps.root_eq hs (by rw [hw, hrb])
    have hkv : ((s1.poison a).poison b).kind v = .poisoned := by
      rw [kind, hcon']
      split
      · rfl
      · rw [hcon, if_pos hva]; rfl
    have hkw : ((s1.poison a).poison b).kind w = .poisoned := by
      rw [kind, hcon', hro, hro, if_pos hwb]; rfl
    simp [hkv, hkw, hka, hkb]

theorem poisoned_of_failed (hs : s.WellFormed) (hv : v < s.size) (hw : w < s.size)
    (h : unifyVars n v w s = .failed m s') :
    (s'.kind v = .poisoned ↔ s.kind w ≠ .free) ∧ (s'.kind w = .poisoned ↔ s.kind v ≠ .free) := by
  have hrun : Runs .any n (.vars v w) s (.failed m s') :=
    runs_of_ran (c := .vars v w) ⟨h, by simp⟩
  cases n with
  | zero => exact hrun.elim
  | succ n =>
    cases hrun with
    | @vars _ _ a b _ s1 s2 _ hfv hfw hroots =>
      obtain ⟨rfl, hf1, hal1, _⟩ := find_spec hs.forest hv hfv
      obtain ⟨rfl, hf2, hal2, _⟩ := find_spec hf1 (by rw [hal1.size]; exact hw) hfw
      have hal := hal1.trans hal2
      have hs2 : s2.WellFormed := (Steps.wellFormed (g := .any) (p := false)
        (.single (.alike hf2 hal)) hs)
      rw [hal1.root] at hroots
      have hfailed := poisoned_of_roots (v := v) (w := w) hs2 hroots
        (by rw [hal.size]; exact hs.forest.root_lt hv)
        (by rw [hal.size]; exact hs.forest.root_lt hw)
        (by rw [hal.root]; exact hs.forest.root_root v)
        (by rw [hal.root]; exact hs.forest.root_root w) (hal.root v) (hal.root w)
      have hkind : ∀ x, s2.kind (s.root x) = s.kind x := fun x => by
        rw [hal.kind, kind, hs.forest.content_root, kind]
      rwa [hkind, hkind] at hfailed

/-- From `s` to `s'` no class that was given up comes back. -/
def Lasts (s s' : Store) : Prop := ∀ v, v < s.size → s.kind v = .poisoned → s'.kind v = .poisoned

theorem Lasts.refl (s : Store) : s.Lasts s := fun _ _ h => h

theorem Lasts.trans (h : s.Lasts s') (hle : s.size ≤ s'.size) (h' : s'.Lasts s'') :
    s.Lasts s'' := fun v hv hk => h' v (Nat.lt_of_lt_of_le hv hle) (h v hv hk)

theorem Lasts.alike (hal : Alike s s') : s.Lasts s' := fun v _ hk => by rw [hal.kind, hk]

section Writes

variable (h : s.Forest)

include h

theorem Lasts.fresh (rank : Rank) (hint : Option String) : s.Lasts (s.fresh rank hint).2 := by
  intro v hv hk
  rw [kind, (fresh_view h rank hint).2.2, if_neg (Nat.ne_of_lt hv)]
  exact hk

theorem Lasts.put {r : Var} (hr : r < s.size) (hroot : s.root r = r) (hk : s.kind r ≠ .poisoned)
    (c : Content) : s.Lasts (s.put r c) := by
  intro v _ hv
  rw [kind, (put_view h hr hroot c).2.2, if_neg]
  · exact hv
  · intro hvr
    rw [kind, ← h.content_root, hvr] at hv
    exact hk hv

theorem Lasts.poison (hx : v < s.size) : s.Lasts (s.poison v) := by
  intro w _ hw
  rw [kind, (poison_view h hx).2.2]
  split
  · rfl
  · exact hw

theorem lasts_link_iff {a b : Var} (ha : a < s.size) (hb : b < s.size) (hra : s.root a = a)
    (hrb : s.root b = b) (hab : a ≠ b) :
    s.Lasts (s.link a b) ↔ (s.kind a = .poisoned → s.kind b = .poisoned) := by
  obtain ⟨_, _, hcon⟩ := link_view h ha hb hra hrb hab
  constructor
  · intro hl hka
    have hk := hl a ha hka
    rwa [kind, hcon, if_pos hra] at hk
  · intro hguard v _ hk
    rw [kind, hcon]
    split
    · rename_i hva
      rw [kind, ← h.content_root, hva] at hk
      exact hguard hk
    · exact hk

end Writes

theorem Write.lasts (h : Write .lasting s s') (hf : s.Forest) : s.Lasts s' := by
  cases h with
  | find hv hfind =>
    obtain ⟨_, _, hal, _⟩ := find_spec hf hv hfind
    exact .alike hal
  | fresh rank hint => exact .fresh hf rank hint
  | lower vs rank => exact .alike (lowerRanks_alike hf rank vs).2
  | bind ha hra hk _ => exact .put hf ha hra (by simp [hk]) _
  | link ha hb hra hrb hab _ hguard =>
    exact (lasts_link_iff hf ha hb hra hrb hab).mpr (hguard.elim id id)
  | merge hint ha hb hra hrb hab hca hcb =>
    have hka := kind_eq_free.mpr ⟨_, _, hca⟩
    have hlink := (lasts_link_iff hf ha hb hra hrb hab).mpr fun hk => by rw [hka] at hk; cases hk
    obtain ⟨_, hal⟩ := merge_alike hf ha hb hra hrb hab (kind_eq_free.mpr ⟨_, _, hcb⟩) _ hint
    exact hlink.trans (link_size ..).ge (.alike hal)
  | poison hv => exact .poison hf hv

theorem Writes.lasts (h : Writes .lasting s s') (hf : s.Forest) (hs : s.Contained) :
    s.Lasts s' := by
  induction h with
  | refl => exact .refl s
  | tail hwrites hw ih =>
    have hages := Writes.ages hwrites hf hs
    exact ih.trans hages.size_le (hw.lasts hages.forest)

theorem Runs.lasts {c : Call} {o : Outcome} (h : Runs .lasting n c s o) (hs : s.WellFormed)
    (hfit : c.Fits s.size) (ho : o.store? = some s') : s.Lasts s' :=
  (h.writes_store? hs.forest hs.contained hfit.below ho).lasts hs.forest hs.contained

namespace Operation

def Fits (n : Nat) : Operation → Prop
  | .fresh _ _ => True
  | .find v => v < n
  | .unify _ l r => l.Fits n ∧ r.Fits n
  | .unifyVars _ v w => v < n ∧ w < n
  | .snapshot _ t => t.Fits n

def call? : Operation → Option (Nat × Call)
  | .unify fuel l r => some (fuel, .types l r)
  | .unifyVars fuel v w => some (fuel, .vars v w)
  | _ => none

/-- Where the operation unifies, what it is about does not lead to the class of `v`, or no class
that was given up goes under one that was not. -/
def Leaves (v : Var) (s : Store) (op : Operation) : Prop :=
  ∀ fuel c, op.call? = some (fuel, c) →
    (c.Over fun w => ¬ s.Reaches w (s.root v)) ∨ c.Keeps .lasting fuel s

end Operation

/-- Operations over variables that were made, with the property `P`, come to an end one after the
other. -/
inductive Operates (P : Store → Operation → Prop) : List Operation → Store → Store → Prop where
  | nil {s : Store} : Operates P [] s s
  | cons {op : Operation} {ops : List Operation} {s s1 s' : Store} : op.Fits s.size → P s op →
      op.run s = some s1 → Operates P ops s1 s' → Operates P (op :: ops) s s'

theorem operation_cases (hs : s.WellFormed) (hop : op.Fits s.size) (h : op.run s = some s') :
    (s'.Forest ∧ Alike s s') ∨ (∃ rank hint, s' = (s.fresh rank hint).2) ∨
      ∃ fuel c o, op.call? = some (fuel, c) ∧ c.Fits s.size ∧ Ran fuel c s o ∧
        o.store? = some s' := by
  cases op with
  | fresh rank hint => cases h; exact .inr (.inl ⟨rank, hint, rfl⟩)
  | find v => cases h; exact .inl ⟨find_forest hs.forest hop, find_alike hs.forest hop⟩
  | unify fuel l r =>
    refine .inr (.inr ⟨fuel, .types l r, _, rfl, hop, ⟨rfl, fun ho => ?_⟩, h⟩)
    rw [Operation.run, show Store.unify fuel l r s = .outOfFuel from ho] at h
    cases h
  | unifyVars fuel v w =>
    refine .inr (.inr ⟨fuel, .vars v w, _, rfl, hop, ⟨rfl, fun ho => ?_⟩, h⟩)
    rw [Operation.run, show Store.unifyVars fuel v w s = .outOfFuel from ho] at h
    cases h
  | snapshot fuel t =>
    obtain ⟨⟨_, s1⟩, hread, rfl⟩ := Option.map_eq_some_iff.mp h
    have hl := hs.forest.linksEnd
    have h1 := ((takeSnapshot_finds .refl hl fuel t).view_eq hread).2
    exact .inl ⟨h1.forest hs.forest, h1.alike hl⟩

theorem After.of_store? {g : Guard} {o : Outcome} (h : After g s o) (ho : o.store? = some s') :
    Steps g true s s' := by
  cases o with
  | unified _ => cases ho; exact Steps.of_false h
  | failed _ _ => cases ho; exact h
  | outOfFuel => cases ho

theorem operation_steps (hs : s.WellFormed) (hop : op.Fits s.size) (h : op.run s = some s') :
    Steps .any true s s' := by
  rcases operation_cases hs hop h with ⟨hf, hal⟩ | ⟨rank, hint, rfl⟩ | ⟨n, c, o, _, hc, hran, ho⟩
  · exact .single (.alike hf hal)
  · exact .single (.fresh rank hint)
  · exact ((runs_of_ran hran).after hs hc).of_store? ho

theorem Operates.wellFormed {P : Store → Operation → Prop} (h : Operates P ops s s')
    (hs : s.WellFormed) : s'.WellFormed := by
  induction h with
  | nil => exact hs
  | cons hop _ hrun _ ih => exact ih ((operation_steps hs hop hrun).wellFormed hs)

theorem operation_lasts (hs : s.WellFormed) (hop : op.Fits s.size) (hleaves : op.Leaves v s)
    (h : op.run s = some s') (hv : v < s.size) (hk : s.kind v = .poisoned) :
    s'.kind v = .poisoned := by
  rcases operation_cases hs hop h with
    ⟨_, hal⟩ | ⟨rank, hint, rfl⟩ | ⟨fuel, c, o, hcall, hc, hran, ho⟩
  · exact Lasts.alike hal v hv hk
  · exact Lasts.fresh hs.forest rank hint v hv hk
  · rcases hleaves fuel c hcall with hover | hkeeps
    · -- the class stays a root with its content, and the variable stays in it
      have hsteps := ((runs_of_ran hran).after hs hc).of_store? ho
      have hspares : Spares (s.root v) s s' := by
        have := (runs_of_ran hran).spares hs hc (s.root v) (hs.forest.root_lt hv)
          (hs.forest.root_root v) hover
        cases o with
        | unified _ => cases ho; exact this
        | failed _ _ => cases ho; exact this
        | outOfFuel => cases ho
      have hroot := hsteps.root_eq hs (hs.forest.root_root v)
      have hf := (hsteps.wellFormed hs).forest
      rw [kind, ← hf.content_root, ← hroot, hf.content_root, hspares.content,
        hs.forest.content_root]
      exact hk
    · exact (hkeeps.runs hran.1 hran.2).lasts hs hc ho v hv hk

theorem operations_last (h : Operates (fun s op => op.Leaves v s) ops s s') (hs : s.WellFormed)
    (hv : v < s.size) (hk : s.kind v = .poisoned) : s'.kind v = .poisoned := by
  induction h with
  | nil => exact hk
  | cons hop hleaves hrun _ ih =>
    have hsteps := operation_steps hs hop hrun
    exact ih (hsteps.wellFormed hs) (Nat.lt_of_lt_of_le hv (hsteps.size_le hs))
      (operation_lasts hs hop hleaves hrun hv hk)

theorem rank?_eq_none_iff : s.rank? v = none ↔ s.kind v ≠ .free := by
  rw [rank?, kind]
  cases s.content v <;> simp [Content.kind]

/-- In every store that operations lead to, failed ones included: if two variables cannot be made
equal, then each of them is given up exactly if the other one was not unbound; so both are if both
were bound. What is given up stays so in all later operations that do not lead to it, or in which no
class that was given up goes under one that was not. To ask this of the step that puts one class
under another is to ask that it brings nothing back. -/
theorem poisoned_for_good {env : Environment} {table : AliasTable} (henv : env.Ordered)
    (htable : env.aliasTable = .ok table) {compress : Bool} {ops : List Operation} {s s' : Store}
    (h : Operates (fun _ _ => True) ops { aliases := table, compress := compress } s) {x y : Var}
    (hx : x < s.size) (hy : y < s.size) {fuel : Nat} {m : Mismatch}
    (hrun : unifyVars fuel x y s = .failed m s') :
    (s'.isPoisoned x = true ↔ s.rank? y = none) ∧ (s'.isPoisoned y = true ↔ s.rank? x = none) ∧
    (∀ v ops' s'', v < s'.size → s'.isPoisoned v = true →
      Operates (fun s op => op.Leaves v s) ops' s' s'' → s''.isPoisoned v = true) ∧
    ∀ a b, a < s.size → b < s.size → s.root a = a → s.root b = b → a ≠ b →
      ((∀ v, v < s.size → s.isPoisoned v = true → (s.link a b).isPoisoned v = true) ↔
        (s.isPoisoned a = true → s.isPoisoned b = true)) := by
  have hs := h.wellFormed (wellFormed_empty (Environment.aliasTable_usable henv htable) compress)
  have hfits : (Operation.unifyVars fuel x y).Fits s.size := ⟨hx, hy⟩
  have hop : (Operation.unifyVars fuel x y).run s = some s' := by rw [Operation.run, hrun]; rfl
  have hs' : s'.WellFormed := (operation_steps hs hfits hop).wellFormed hs
  have hfailed := poisoned_of_failed hs hx hy hrun
  simp only [isPoisoned_iff, rank?_eq_none_iff]
  refine ⟨hfailed.1, hfailed.2, fun v ops' s'' hv hk hops => operations_last hops hs' hv hk, ?_⟩
  exact fun a b ha hb hra hrb hab => lasts_link_iff hs.forest ha hb hra hrb hab

def twoBound : Store := { slots := #[.root (.bound .int), .root (.bound .string)] }

def twoPoisoned : Store := { slots := #[.root .poisoned, .root .poisoned] }

/-- A number is no text: both variables are given up, and stay so when one of them is compared with
another type and a new variable is made equal to it. -/
theorem poisoned_for_good_clash : ∃ m s',
    Operates (fun _ _ => True) [.fresh 0 none, .fresh 0 none, .unify 9 (.var 0) .int,
      .unify 9 (.var 1) .string] {} twoBound ∧
    unifyVars 9 0 1 twoBound = .failed m twoPoisoned ∧
    Operates (fun s op => op.Leaves 0 s) [.unify 9 (.var 0) .bool, .fresh 0 none,
      .unifyVars 9 2 0] twoPoisoned s' ∧
    twoPoisoned.isPoisoned 0 = true ∧ twoPoisoned.isPoisoned 1 = true ∧
    s'.isPoisoned 0 = true := by
  have hvar : ∀ v n, v < n → (Ty.var v).Fits n := fun v n hv => by
    simpa [Ty.Fits, Ty.over_var] using hv
  have hcon : ∀ name n, (Ty.con name).Fits n := fun name n => by
    simp [Ty.Fits, Ty.con, Ty.over_app]
  have hint : (Operation.unify 9 (.var 0) .int).run (blank [] 2) =
      some { slots := #[.root (.bound .int), .root (.unbound 0 none)] } := rfl
  have hbefore : Operates (fun _ _ => True) [.fresh 0 none, .fresh 0 none,
      .unify 9 (.var 0) .int, .unify 9 (.var 1) .string] {} twoBound :=
    .cons trivial trivial rfl (.cons trivial trivial rfl
      (.cons ⟨hvar 0 2 (by decide), hcon _ 2⟩ trivial hint
        (.cons ⟨hvar 1 2 (by decide), hcon _ 2⟩ trivial rfl .nil)))
  obtain ⟨m, hrun⟩ : ∃ m, unifyVars 9 0 1 twoBound = .failed m twoPoisoned := ⟨_, rfl⟩
  have hfirst : Operation.Leaves 0 twoPoisoned (.unify 9 (.var 0) .bool) := by
    rintro _ _ ⟨⟩
    have hruns : Runs .lasting 9 (.types (.var 0) .bool) twoPoisoned (.unified twoPoisoned) :=
      Rule.varLeft rfl (Rule.poisoned rfl rfl)
    exact .inr hruns.keeps
  have hsecond : Operation.Leaves 0 (twoPoisoned.fresh 0 none).2 (.unifyVars 9 2 0) := by
    rintro _ _ ⟨⟩
    have hruns : ∃ s', Runs .lasting 9 (.vars 2 0) (twoPoisoned.fresh 0 none).2 (.unified s') :=
      ⟨_, Rule.vars rfl rfl (.poisonedRight (by decide) (by rintro ⟨⟩) rfl)⟩
    obtain ⟨s', hruns⟩ := hruns
    exact .inr hruns.keeps
  obtain ⟨s', hlast⟩ : ∃ s', Operation.run (.unifyVars 9 2 0) (twoPoisoned.fresh 0 none).2 =
      some s' := ⟨_, rfl⟩
  have hafter : Operates (fun s op => op.Leaves 0 s) [.unify 9 (.var 0) .bool, .fresh 0 none,
      .unifyVars 9 2 0] twoPoisoned s' :=
    .cons ⟨hvar 0 2 (by decide), hcon _ 2⟩ hfirst rfl
      (.cons trivial (by rintro _ _ ⟨⟩) rfl
        (.cons (show 2 < 3 ∧ 0 < 3 by decide) hsecond hlast .nil))
  have hordered : ({} : Environment).Ordered := by rintro _ ⟨⟩
  obtain ⟨hx, hy, hstay, _⟩ := poisoned_for_good hordered rfl hbefore (x := 0) (y := 1) (by decide)
    (by decide) hrun
  exact ⟨m, s', hbefore, hrun, hafter, hx.mpr rfl, hy.mpr rfl,
    hstay 0 _ s' (by decide) (hx.mpr rfl) hafter⟩

/-- Two classes that were given up, a list of the first, and a list of this list. -/
def twoLists : Store :=
  { slots := #[.root .poisoned, .root .poisoned, .root (.bound (.list (.var 0))),
      .root (.bound (.list (.var 2)))] }

def oneList : Store :=
  { slots := #[.link 3, .root .poisoned, .link 0, .root (.bound (.list (.var 2)))] }

/-- An unbound variable that is made equal to a list of itself is given up, but the list is not. And
a class that was given up comes back: a list of it is made equal to a list of this list. -/
theorem poison_misses_and_fades :
    (∃ s m s', unify 9 (.var 1) (.list (.var 0)) (blank [] 2) = .unified s ∧
      unifyVars 9 0 1 s = .failed m s' ∧ s'.isPoisoned 0 = true ∧ s'.isPoisoned 1 = false) ∧
    (∃ m, unifyVars 9 0 1 twoBound = .failed m twoPoisoned) ∧
    (∃ s, unify 9 (.var 2) (.list (.var 0)) ((twoPoisoned.fresh 0 none).2.fresh 0 none).2 =
      .unified s ∧ unify 9 (.var 3) (.list (.var 2)) s = .unified twoLists) ∧
    twoLists.isPoisoned 0 = true ∧ unifyVars 9 2 3 twoLists = .unified oneList ∧
    oneList.isPoisoned 0 = false :=
  ⟨⟨{ slots := #[.root (.unbound 0 none), .root (.bound (.list (.var 0)))] },
      .occurs (.var "t0") (.app "List" [.var "t0"]),
      { slots := #[.root .poisoned, .root (.bound (.list (.var 0)))] }, rfl, rfl, rfl, rfl⟩,
    ⟨.shape (.app "Int" []) (.app "String" []), rfl⟩,
    ⟨{ slots := #[.root .poisoned, .root .poisoned, .root (.bound (.list (.var 0))),
      .root (.unbound 0 none)] }, rfl, rfl⟩, rfl, rfl, rfl⟩

end Store
end TypeSolver
