import TypeSolver.Proofs.Lookups

/-!
# TypeSolver.Proofs.Copies

What a copy of a type is. `Copied s qs copies t u` relates a type to its copy without the order of
steps: quantified variables are replaced by their copies, bound variables by copies of what they
stand for, and all others stay. `Store.Grounded.copyable` says that where bindings come to an end,
copying does too, with such a type as the result, and that it only adds variables to the store
(`Extends`).
-/

namespace TypeSolver
namespace Copying

/-- The copies made so far, starting from the store `s`: each is a new variable of the given rank,
for a root of its own among `qs` whose hint it takes. All that was in the store before is still there. -/
structure Extends (s : Store) (qs : List Var) (rank : Rank) (c : Copying) : Prop where
  forest : c.store.Forest
  aliases : c.store.aliases = s.aliases
  size_le : s.size ≤ c.store.size
  root : ∀ v, c.store.root v = s.root v
  content : ∀ v, v < s.size → c.store.content v = s.content v
  unbound : ∀ v, s.size ≤ v → v < c.store.size → ∃ hint, c.store.content v = .unbound rank hint
  source : ∀ q w, (q, w) ∈ c.copies → q ∈ qs ∧ s.kind q = .free ∧ s.root q = q
  target : ∀ q w, (q, w) ∈ c.copies → s.size ≤ w ∧ w < c.store.size
  functional : ∀ q w w', (q, w) ∈ c.copies → (q, w') ∈ c.copies → w = w'
  injective : ∀ q q' w, (q, w) ∈ c.copies → (q', w) ∈ c.copies → q = q'
  hinted : ∀ q w, (q, w) ∈ c.copies →
    ∃ k hint, s.content q = .unbound k hint ∧ c.store.content w = .unbound rank hint

/-- The type `u` is a copy of `t`: the variables `qs` are replaced as `copies` says, bound variables
by what they stand for, and all others are kept. -/
inductive Copied (s : Store) (qs : List Var) (copies : List (Var × Var)) : Ty → Ty → Prop where
  | copy {v w : Var} : (s.root v, w) ∈ copies → Copied s qs copies (.var v) (.var w)
  | bound {v : Var} {t u : Ty} : s.kind v = .bound t → Copied s qs copies t u →
      Copied s qs copies (.var v) u
  | free {v : Var} : s.kind v = .free → s.root v ∉ qs → Copied s qs copies (.var v) (.var v)
  | poisoned {v : Var} : s.kind v = .poisoned → Copied s qs copies (.var v) (.var v)
  | func {arg ret a r : Ty} : Copied s qs copies arg a → Copied s qs copies ret r →
      Copied s qs copies (.func arg ret) (.func a r)
  | app {name : String} {args ts : List Ty} : args.length = ts.length →
      (∀ a t, (a, t) ∈ args.zip ts → Copied s qs copies a t) →
      Copied s qs copies (.app name args) (.app name ts)
  | closed {fields fs : List (String × Ty)} : Assoc.keys fields = Assoc.keys fs →
      (∀ k t u, ((k, t), (k, u)) ∈ fields.zip fs → Copied s qs copies t u) →
      Copied s qs copies (.record fields none) (.record fs none)
  | opened {fields fs : List (String × Ty)} {v : Var} {u : Ty} :
      Assoc.keys fields = Assoc.keys fs →
      (∀ k t u, ((k, t), (k, u)) ∈ fields.zip fs → Copied s qs copies t u) →
      Copied s qs copies (.var v) u → Copied s qs copies (.record fields (some v)) (extend fs v u)

variable {s : Store} {qs : List Var} {rank : Rank} {copies copies' : List (Var × Var)} {t u : Ty}

theorem Copied.mono (h : Copied s qs copies t u) (hsub : copies ⊆ copies') :
    Copied s qs copies' t u := by
  induction h with
  | copy h => exact .copy (hsub h)
  | bound hk _ ih => exact .bound hk ih
  | free hk hq => exact .free hk hq
  | poisoned hk => exact .poisoned hk
  | func _ _ iha ihr => exact .func iha ihr
  | app hlen _ ih => exact .app hlen ih
  | closed hk _ ih => exact .closed hk ih
  | opened hk _ _ ih ihv => exact .opened hk ih ihv

def Ends {β : Type} (s : Store) (qs : List Var) (rank : Rank)
    (step : Nat → StateT Copying Option β) : Prop :=
  ∀ c, Extends s qs rank c →
    ∃ y c', (EnoughFuel fun k => (step k).run c = some (y, c')) ∧ Extends s qs rank c'

namespace Ends

variable {β γ : Type} {step : Nat → StateT Copying Option β}

theorem pure (y : β) : Ends s qs rank fun _ => Pure.pure y :=
  fun c hc => ⟨y, c, .intro fun _ => rfl, hc⟩

theorem bind {next : Nat → β → StateT Copying Option γ} (h : Ends s qs rank step)
    (hnext : ∀ y, Ends s qs rank fun k => next k y) :
    Ends s qs rank fun k => step k >>= next k := by
  intro c hc
  obtain ⟨y, c1, hrun, hc1⟩ := h c hc
  obtain ⟨z, c2, hrun', hc2⟩ := hnext y c1 hc1
  refine ⟨z, c2, (hrun.and hrun').mono fun k ⟨hk, hk'⟩ => ?_, hc2⟩
  exact Option.bind_eq_some_iff.mpr ⟨_, hk, hk'⟩

theorem of_succ (h : Ends s qs rank fun k => step (k + 1)) : Ends s qs rank step := by
  intro c hc
  obtain ⟨y, c', hrun, hc'⟩ := h c hc
  exact ⟨y, c', .of_succ hrun, hc'⟩

theorem mapM {α : Type} {step : Nat → α → StateT Copying Option β} {xs : List α}
    (h : ∀ x ∈ xs, Ends s qs rank fun k => step k x) :
    Ends s qs rank fun k => xs.mapM (step k) := by
  induction xs with
  | nil => exact pure []
  | cons x xs ih =>
    simp only [List.mapM_cons]
    exact bind (h x (by simp)) fun y => bind (ih fun x hx => h x (by simp [hx])) fun ys => pure _

end Ends

variable {c : Copying} {v : Var}

variable {k : Nat}

theorem find_eq (v : Var) (c : Copying) :
    find v c = (c.store.root v, ⟨(c.store.find v).2, c.copies⟩) := by
  rw [← Store.find_fst]
  rfl

theorem copy_known {w : Var} (h : Assoc.get? c.copies (c.store.root v) = some w) :
    (copy qs rank (k + 1) (.var v)).run c = some (.var w, (find v c).2) := by
  have hfind : (modifyGet (find v) : StateT Copying Option Var).run c = some (find v c) := rfl
  rw [copy, StateT.run_bind, hfind, find_eq]
  simp only [StateT.run_bind, StateT.run_get, Option.pure_def, Option.bind_eq_bind, Option.bind_some,
    h]
  rfl

theorem copy_new (h : Assoc.get? c.copies (c.store.root v) = none) :
    (copy qs rank (k + 1) (.var v)).run c =
      match (c.store.find v).2.content (c.store.root v) with
      | .bound t => (copy qs rank k t).run (find v c).2
      | .unbound _ hint =>
        if c.store.root v ∈ qs then some (make (c.store.root v) rank hint (find v c).2)
        else some (.var v, (find v c).2)
      | .poisoned => some (.var v, (find v c).2) := by
  have hfind : (modifyGet (find v) : StateT Copying Option Var).run c = some (find v c) := rfl
  rw [copy, StateT.run_bind, hfind, find_eq]
  simp only [StateT.run_bind, StateT.run_get, Option.pure_def, Option.bind_eq_bind, Option.bind_some,
    h]
  cases (c.store.find v).2.content (c.store.root v) with
  | bound t => rfl
  | unbound rank' hint => dsimp only; split <;> rfl
  | poisoned => rfl

theorem Extends.relink (hc : Extends s qs rank c) {s' : Store} (h : Store.Relinked c.store s') :
    Extends s qs rank ⟨s', c.copies⟩ := by
  have hends := hc.forest.linksEnd
  refine ⟨h.forest hc.forest, h.aliases.trans hc.aliases, ?_, fun v => ?_, fun v hv => ?_,
    fun v hv hv' => ?_, hc.source, fun q w hw => ?_, hc.functional, hc.injective, fun q w hw => ?_⟩
  · rw [h.size hends]; exact hc.size_le
  · rw [h.root hends, hc.root]
  · rw [h.content hends, hc.content v hv]
  · rw [h.content hends]; exact hc.unbound v hv (by rwa [h.size hends] at hv')
  · rw [h.size hends]; exact hc.target q w hw
  · rw [h.content hends]; exact hc.hinted q w hw

theorem Extends.find (hc : Extends s qs rank c) (v : Var) : Extends s qs rank (Copying.find v c).2 :=
  hc.relink (.single c.store v)

theorem Extends.make (hc : Extends s qs rank c) {q : Var} (hq : q ∈ qs) {k : Rank}
    {hint : Option String} (hk : s.content q = .unbound k hint) (hroot : s.root q = q)
    (hn : ∀ w, (q, w) ∉ c.copies) : Extends s qs rank (make q rank hint c).2 := by
  obtain ⟨hf, hr, hcon⟩ := Store.fresh_view hc.forest rank hint
  show Extends s qs rank ⟨(c.store.fresh rank hint).2, (q, c.store.size) :: c.copies⟩
  refine ⟨hf, hc.aliases, ?_, fun v => (hr v).trans (hc.root v), fun v hv => ?_, fun v hv hv' => ?_,
    fun q' w hw => ?_, fun q' w hw => ?_, fun q' w w' hw hw' => ?_, fun q' q'' w hw hw' => ?_,
    fun q' w hw => ?_⟩
  · rw [Store.fresh_size]; exact hc.size_le.trans (Nat.le_succ _)
  · rw [hcon, if_neg (Nat.ne_of_lt (hv.trans_le hc.size_le)), hc.content v hv]
  · rw [hcon]
    split
    · exact ⟨hint, rfl⟩
    · rename_i hne
      rw [Store.fresh_size] at hv'
      exact hc.unbound v hv (Nat.lt_of_le_of_ne (Nat.le_of_lt_succ hv') hne)
  · rcases List.mem_cons.mp hw with heq | hw
    · cases heq; exact ⟨hq, Store.kind_eq_free.mpr ⟨k, hint, hk⟩, hroot⟩
    · exact hc.source q' w hw
  · rw [Store.fresh_size]
    rcases List.mem_cons.mp hw with heq | hw
    · cases heq; exact ⟨hc.size_le, Nat.lt_succ_self _⟩
    · obtain ⟨hle, hlt⟩ := hc.target q' w hw
      exact ⟨hle, Nat.lt_succ_of_lt hlt⟩
  · rcases List.mem_cons.mp hw with heq | hw <;> rcases List.mem_cons.mp hw' with heq' | hw'
    · cases heq; cases heq'; rfl
    · cases heq; exact absurd hw' (hn w')
    · cases heq'; exact absurd hw (hn w)
    · exact hc.functional q' w w' hw hw'
  · rcases List.mem_cons.mp hw with heq | hw <;> rcases List.mem_cons.mp hw' with heq' | hw'
    · cases heq; cases heq'; rfl
    · cases heq; exact absurd (hc.target q'' _ hw').2 (Nat.lt_irrefl _)
    · cases heq'; exact absurd (hc.target q' _ hw).2 (Nat.lt_irrefl _)
    · exact hc.injective q' q'' w hw hw'
  · rcases List.mem_cons.mp hw with heq | hw
    · cases heq
      exact ⟨k, hint, hk, by rw [hcon, if_pos rfl]⟩
    · rw [hcon, if_neg (Nat.ne_of_lt (hc.target q' w hw).2)]
      exact hc.hinted q' w hw

/-- With enough fuel, `t` can be copied, from all stores that grew out of `s` by copying. -/
def Copyable (s : Store) (qs : List Var) (rank : Rank) (t : Ty) : Prop :=
  Ends s qs rank fun k => copy qs rank k t

theorem Extends.content_root (hc : Extends s qs rank c) (h : s.Forest) (hv : v < s.size) :
    (c.store.find v).2.content (c.store.root v) = s.content v := by
  have hroot := h.root_lt hv
  rw [(Store.Relinked.single c.store v).content hc.forest.linksEnd, hc.root, hc.content _ hroot,
    h.content_root]

theorem Extends.makeRoot (hc : Extends s qs rank c) (h : s.Forest)
    (hget : Assoc.get? c.copies (c.store.root v) = none) (hq : c.store.root v ∈ qs) {k : Rank}
    {hint : Option String} (hk : s.content v = .unbound k hint) :
    Extends s qs rank (Copying.make (c.store.root v) rank hint (Copying.find v c).2).2 := by
  refine (hc.find v).make (k := k) hq ?_ ?_ ?_
  · rw [hc.root, h.content_root, hk]
  · rw [hc.root, h.root_root]
  · exact fun w hw => Assoc.get?_eq_none_iff.mp hget (List.mem_map_of_mem (f := Prod.fst) hw)

theorem copyable_var (h : s.Forest) (hv : v < s.size)
    (hbound : ∀ t, s.kind v = .bound t → Copyable s qs rank t) : Copyable s qs rank (.var v) := by
  refine .of_succ fun c hc => ?_
  have hcon := hc.content_root h hv
  have hc' := hc.find v
  cases hget : Assoc.get? c.copies (c.store.root v) with
  | some w => exact ⟨.var w, _, .intro fun k => copy_known hget, hc'⟩
  | none =>
    simp only [copy_new hget, hcon]
    cases hk : s.content v with
    | bound t => exact hbound t (Store.kind_eq_bound.mpr hk) _ hc'
    | poisoned => exact ⟨.var v, _, .intro fun k => rfl, hc'⟩
    | unbound rank' hint =>
      by_cases hq : c.store.root v ∈ qs
      · exact ⟨_, _, .intro fun k => if_pos hq, hc.makeRoot h hget hq hk⟩
      · exact ⟨.var v, _, .intro fun k => if_neg hq, hc'⟩

def copyField (qs : List Var) (rank : Rank) (k : Nat) (f : String × Ty) :
    StateT Copying Option (String × Ty) := do
  let u ← copy qs rank k f.2
  pure (f.1, u)

theorem copied_app {name : String} {args ts : List Ty}
    (h : List.Forall₂ (Copied s qs copies) args ts) :
    Copied s qs copies (.app name args) (.app name ts) :=
  .app h.length_eq fun _ _ hp => (List.forall₂_iff_zip.mp h).2 hp

theorem copyable_of_vars (hvars : ∀ v ∈ t.vars, Copyable s qs rank (.var v)) :
    Copyable s qs rank t := by
  induction t with
  | var v => exact hvars v (by simp)
  | func arg ret iha ihr =>
    refine .of_succ ?_
    exact Ends.bind (iha fun v hv => hvars v (by simp [hv])) fun a =>
      Ends.bind (ihr fun v hv => hvars v (by simp [hv])) fun r => .pure _
  | app name args ih =>
    refine .of_succ (Ends.bind (Ends.mapM fun a ha => ?_) fun ts => .pure _)
    exact ih a ha fun v hv => hvars v (Ty.mem_vars_app.mpr ⟨a, ha, hv⟩)
  | record fields ext ih =>
    have hfields : Ends s qs rank fun k => fields.mapM (copyField qs rank k) :=
      Ends.mapM fun f hf => Ends.bind (ih f hf fun v hv =>
        hvars v (Ty.mem_vars_record.mpr (.inl ⟨f, hf, hv⟩))) fun u => .pure _
    refine .of_succ ?_
    cases ext with
    | none => exact Ends.bind hfields fun fs => .pure _
    | some v =>
      exact Ends.bind hfields fun fs => Ends.bind (hvars v (by simp)) fun rest => .pure _

/-- If the step ends, it adds to the copies, and what it returns is as `Q` says. -/
def Yields {β : Type} (s : Store) (qs : List Var) (rank : Rank) (step : StateT Copying Option β)
    (c : Copying) (Q : List (Var × Var) → β → Prop) : Prop :=
  ∀ y c', step.run c = some (y, c') → Extends s qs rank c' ∧ c.copies ⊆ c'.copies ∧ Q c'.copies y

namespace Yields

variable {β γ : Type} {step : StateT Copying Option β} {P : List (Var × Var) → β → Prop}
  {Q : List (Var × Var) → γ → Prop}

theorem pure {y : β} (hc : Extends s qs rank c) (h : P c.copies y) :
    Yields s qs rank (Pure.pure y) c P := by
  rintro _ _ ⟨⟩
  exact ⟨hc, fun _ h => h, h⟩

theorem bind {next : β → StateT Copying Option γ} (h : Yields s qs rank step c P)
    (hnext : ∀ c' y, Extends s qs rank c' → c.copies ⊆ c'.copies → P c'.copies y →
      Yields s qs rank (next y) c' Q) :
    Yields s qs rank (step >>= next) c Q := by
  intro z c2 hrun
  obtain ⟨⟨y, c1⟩, hy, hz⟩ := Option.bind_eq_some_iff.mp hrun
  obtain ⟨hc1, hsub, hP⟩ := h y c1 hy
  obtain ⟨hc2, hsub', hQ⟩ := hnext c1 y hc1 hsub hP z c2 hz
  exact ⟨hc2, fun _ h => hsub' (hsub h), hQ⟩

theorem mapM {α : Type} {step : α → StateT Copying Option β}
    {R : List (Var × Var) → α → β → Prop}
    (hR : ∀ copies copies' x y, copies ⊆ copies' → R copies x y → R copies' x y) {xs : List α}
    (h : ∀ x ∈ xs, ∀ c, Extends s qs rank c → Yields s qs rank (step x) c (R · x))
    (c : Copying) (hc : Extends s qs rank c) :
    Yields s qs rank (xs.mapM step) c fun copies ys => List.Forall₂ (R copies) xs ys := by
  induction xs generalizing c with
  | nil => exact .pure hc .nil
  | cons x xs ih =>
    simp only [List.mapM_cons]
    refine bind (h x (by simp) c hc) fun c1 y hc1 _ hy => ?_
    refine bind (ih (fun x hx => h x (by simp [hx])) c1 hc1) fun c2 ys hc2 hsub hys => ?_
    exact .pure hc2 (.cons (hR _ _ _ _ hsub hy) hys)

end Yields

theorem copy_var_yields (h : s.Forest) (hv : v < s.size)
    (hbound : ∀ t c, s.kind v = .bound t → Extends s qs rank c →
      Yields s qs rank (copy qs rank k t) c (Copied s qs · t))
    (hc : Extends s qs rank c) :
    Yields s qs rank (copy qs rank (k + 1) (.var v)) c (Copied s qs · (.var v)) := by
  intro u c' hrun
  have hcon := hc.content_root h hv
  have hc1 := hc.find v
  cases hget : Assoc.get? c.copies (c.store.root v) with
  | some w =>
    rw [copy_known hget] at hrun
    cases hrun
    refine ⟨hc1, fun _ h => h, .copy ?_⟩
    rw [← hc.root]
    exact Assoc.mem_of_get? hget
  | none =>
    rw [copy_new hget, hcon] at hrun
    cases hk : s.content v with
    | bound t =>
      rw [hk] at hrun
      have hkind : s.kind v = .bound t := Store.kind_eq_bound.mpr hk
      obtain ⟨hc', hsub, hu⟩ := hbound t _ hkind hc1 u c' hrun
      exact ⟨hc', hsub, .bound hkind hu⟩
    | poisoned =>
      rw [hk] at hrun
      cases hrun
      exact ⟨hc1, fun _ h => h, .poisoned (Store.kind_eq_poisoned.mpr hk)⟩
    | unbound rank' hint =>
      rw [hk] at hrun
      have hfree : s.kind v = .free := Store.kind_eq_free.mpr ⟨rank', hint, hk⟩
      by_cases hq : c.store.root v ∈ qs
      · simp only [if_pos hq] at hrun
        cases hrun
        refine ⟨hc.makeRoot h hget hq hk, fun e he => .tail _ he, .copy ?_⟩
        rw [← hc.root]
        exact .head _
      · simp only [if_neg hq] at hrun
        cases hrun
        exact ⟨hc1, fun _ h => h, .free hfree (by rwa [hc.root] at hq)⟩

theorem copy_yields {V : Var → Prop} (h : s.Forest) (hs : s.Closed V) (ht : ∀ v ∈ t.vars, V v)
    (hc : Extends s qs rank c) : Yields s qs rank (copy qs rank k t) c (Copied s qs · t) := by
  induction k generalizing t c with
  | zero => intro u c' hrun; cases hrun
  | succ k ih =>
    cases t with
    | var v =>
      have hv := ht v (by simp)
      exact copy_var_yields h (hs.lt v hv) (fun t c hk hc => ih (hs.vars v t hv hk) hc) hc
    | func arg ret =>
      refine Yields.bind (ih (fun v hv => ht v (by simp [hv])) hc) fun c1 a hc1 _ ha => ?_
      refine Yields.bind (ih (fun v hv => ht v (by simp [hv])) hc1) fun c2 r hc2 hsub hr => ?_
      exact .pure hc2 (.func (ha.mono hsub) hr)
    | app name args =>
      refine Yields.bind (Yields.mapM (R := Copied s qs) (fun _ _ _ _ hsub h => h.mono hsub)
        (fun a ha c hc => ih (fun v hv => ht v (Ty.mem_vars_app.mpr ⟨a, ha, hv⟩)) hc) c hc)
        fun c' ts hc' _ hts => .pure hc' (copied_app hts)
    | record fields ext =>
      have hfields : Yields s qs rank (fields.mapM (copyField qs rank k)) c fun copies fs =>
          Assoc.Related (Copied s qs copies) fields fs := by
        refine Yields.mapM
          (R := fun copies (f g : String × Ty) => f.1 = g.1 ∧ Copied s qs copies f.2 g.2)
          (fun _ _ _ _ hsub h => ⟨h.1, h.2.mono hsub⟩) (fun f hmem c hc => ?_) c hc
        exact Yields.bind (ih (fun v hv => ht v (Ty.mem_vars_record.mpr (.inl ⟨f, hmem, hv⟩))) hc) fun c' u hc' _ hu => .pure hc' ⟨rfl, hu⟩
      cases ext with
      | none =>
        refine Yields.bind hfields fun c' fs hc' _ hfs => .pure hc' ?_
        exact .closed hfs.keys_eq fun k t u hp => ((List.forall₂_iff_zip.mp hfs).2 hp).2
      | some v =>
        refine Yields.bind hfields fun c1 fs hc1 _ hfs => ?_
        refine Yields.bind (ih (fun w hw => ht w ?_) hc1) fun c2 rest hc2 hsub hrest => .pure hc2 ?_
        · rw [Ty.mem_vars_var.mp hw]; exact Ty.mem_vars_record.mpr (.inr rfl)
        · exact .opened hfs.keys_eq
            (fun k t u hp => (((List.forall₂_iff_zip.mp hfs).2 hp).2).mono hsub) hrest

end Copying

namespace Store

open Copying

variable {s : Store} {qs : List Var} {t : Ty}

theorem Grounded.copyable (hg : s.Grounded) (h : s.Formed) (rank : Rank) (ht : t.Fits s.size) :
    Copyable s qs rank t := by
  refine copyable_of_vars fun v hv => ?_
  have hlt := ht.lt hv
  clear ht hv
  induction v using (hg.mentions h.forest).induction with
  | _ v ih =>
    refine copyable_var h.forest hlt fun t hk => copyable_of_vars fun w hw => ?_
    exact ih w ⟨t, hk, hw⟩ ((h.fits v t hk).lt hw)

theorem extends_start (h : s.Forest) (qs : List Var) (rank : Rank) :
    Extends s qs rank { store := s } :=
  ⟨h, rfl, le_rfl, fun _ => rfl, fun _ _ => rfl,
    fun _ hle hlt => absurd hle hlt.not_ge, nofun, nofun, nofun, nofun, nofun⟩

variable {rank : Rank}

theorem instantiate_cons (h : s.Forest) (q : Var) (qs : List Var) (rank : Rank) (t : Ty) :
    ∃ s', Relinked s s' ∧ ∀ k, s.instantiate k (q :: qs) rank t =
      ((copy ((q :: qs).map s.root) rank k t).run { store := s' }).map fun (u, c) => (u, c.store) := by
  obtain ⟨s', hall, hs'⟩ := Relinked.refl.findAll_eq h.linksEnd (q :: qs)
  refine ⟨s', hs', fun k => ?_⟩
  rw [instantiate, hall]
  rfl

theorem exists_instance_of_copyable {V : Var → Prop} (h : s.Forest) (hs : s.Closed V)
    (ht : ∀ v ∈ t.vars, V v) (hcopy : Copyable s (qs.map s.root) rank t) : ∃ u c,
      (EnoughFuel fun k => s.instantiate k qs rank t = some (u, c.store)) ∧
      Extends s (qs.map s.root) rank c ∧
      (qs = [] ∧ u = t ∧ c.store = s ∨ Copied s (qs.map s.root) c.copies t u) := by
  cases qs with
  | nil =>
    exact ⟨t, { store := s }, .intro fun k => rfl, extends_start h _ rank, .inl ⟨rfl, rfl, rfl⟩⟩
  | cons q qs =>
    obtain ⟨s', hs', hinst⟩ := instantiate_cons h q qs rank t
    have hstart := (extends_start h ((q :: qs).map s.root) rank).relink hs'
    obtain ⟨u, c, hrun, hc⟩ := hcopy _ hstart
    obtain ⟨n, hn⟩ := hrun.exists_fuel
    refine ⟨u, c, hrun.mono fun k hk => ?_, hc, .inr (copy_yields h hs ht hstart u c hn).2.2⟩
    rw [hinst, hk]
    rfl

theorem Grounded.exists_instance (hg : s.Grounded) (h : s.Formed) (qs : List Var) (rank : Rank)
    (ht : t.Fits s.size) : ∃ u c,
      (EnoughFuel fun k => s.instantiate k qs rank t = some (u, c.store)) ∧
      Extends s (qs.map s.root) rank c ∧
      (qs = [] ∧ u = t ∧ c.store = s ∨ Copied s (qs.map s.root) c.copies t u) :=
  exists_instance_of_copyable h.forest h.contained.closed ht.below (hg.copyable h rank ht)

theorem instance_copied (h : s.Forest) (hs : s.Contained) {k : Nat} {u : Ty} {s' : Store}
    (hrun : s.instantiate k qs rank t = some (u, s')) (ht : t.Below s.size) :
    ∃ c, s' = c.store ∧ Extends s (qs.map s.root) rank c ∧
      (qs = [] ∧ u = t ∧ c.store = s ∨ Copied s (qs.map s.root) c.copies t u) := by
  cases qs with
  | nil =>
    cases hrun
    exact ⟨{ store := s }, rfl, extends_start h _ rank, .inl ⟨rfl, rfl, rfl⟩⟩
  | cons q qs =>
    obtain ⟨s1, hs1, hinst⟩ := instantiate_cons h q qs rank t
    rw [hinst] at hrun
    obtain ⟨⟨u, c⟩, hcopy, heq⟩ := Option.map_eq_some_iff.mp hrun
    cases heq
    have hstart := (extends_start h ((q :: qs).map s.root) rank).relink hs1
    obtain ⟨hc, _, hu⟩ := copy_yields h hs.closed ht hstart u c hcopy
    exact ⟨c, rfl, hc, .inr hu⟩

end Store
end TypeSolver
