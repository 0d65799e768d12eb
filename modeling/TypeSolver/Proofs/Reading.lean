import Mathlib.Data.String.Basic
import TypeSolver.Proofs.Views
import TypeSolver.Proofs.Solutions

/-!
# TypeSolver.Proofs.Reading

Snapshots show meanings. `readType` succeeds with enough fuel on every type over a store whose
bindings come to an end, and what it shows is the meaning of the type in the reading of the store
(`Reading.snapshot`). As a meaning is shown in one way only (`Meaning.named_inj`), equal
snapshots are equal meanings (`Reading.eq_of_snapshot`).
-/

namespace TypeSolver

/-! ## Enough fuel -/

def EnoughFuel (P : Nat → Prop) : Prop := ∃ n, ∀ k, n ≤ k → P k

namespace EnoughFuel

variable {P Q : Nat → Prop}

theorem intro (h : ∀ k, P k) : EnoughFuel P := ⟨0, fun k _ => h k⟩

theorem mono (h : EnoughFuel P) (hPQ : ∀ k, P k → Q k) : EnoughFuel Q :=
  h.imp fun _ h k hk => hPQ k (h k hk)

theorem and (h : EnoughFuel P) (h' : EnoughFuel Q) : EnoughFuel fun k => P k ∧ Q k := by
  obtain ⟨n, h⟩ := h
  obtain ⟨n', h'⟩ := h'
  exact ⟨max n n', fun k hk => ⟨h k (le_of_max_le_left hk), h' k (le_of_max_le_right hk)⟩⟩

theorem of_succ (h : EnoughFuel fun k => P (k + 1)) : EnoughFuel P := by
  obtain ⟨n, h⟩ := h
  refine ⟨n + 1, fun k hk => ?_⟩
  obtain ⟨j, rfl⟩ : ∃ j, k = j + 1 := ⟨k - 1, by omega⟩
  exact h j (by omega)

theorem forall_mem {α : Type} {P : Nat → α → Prop} {xs : List α}
    (h : ∀ x ∈ xs, EnoughFuel fun k => P k x) : EnoughFuel fun k => ∀ x ∈ xs, P k x := by
  induction xs with
  | nil => exact .intro fun _ _ hx => by cases hx
  | cons x xs ih =>
    refine ((h x (by simp)).and (ih fun y hy => h y (by simp [hy]))).mono fun k hk y hy => ?_
    rcases List.mem_cons.mp hy with rfl | hy
    · exact hk.1
    · exact hk.2 y hy

theorem exists_fuel (h : EnoughFuel P) : ∃ k, P k := by
  obtain ⟨n, h⟩ := h
  exact ⟨n, h n (Nat.le_refl n)⟩

end EnoughFuel

/-! ## Reading one type after the other -/

/-- Steps that pass on a state: each starts in the state that the one before it left. -/
inductive Threaded {σ α β : Type} (M : α → σ → β → σ → Prop) :
    List α → σ → List β → σ → Prop where
  | nil {st : σ} : Threaded M [] st [] st
  | cons {x : α} {xs : List α} {y : β} {ys : List β} {st st' st'' : σ} :
      M x st y st' → Threaded M xs st' ys st'' → Threaded M (x :: xs) st (y :: ys) st''

/-- The steps of `xs.mapM f` in a state monad. -/
abbrev Threads {σ α β : Type} (f : α → StateT σ Option β) : List α → σ → List β → σ → Prop :=
  Threaded fun x st y st' => (f x).run st = some (y, st')

variable {α β σ : Type}

theorem mapM_run_eq_some {f : α → StateT σ Option β} {xs : List α} {ys : List β} {st st' : σ} :
    (xs.mapM f).run st = some (ys, st') ↔ Threads f xs st ys st' := by
  induction xs generalizing ys st with
  | nil =>
    constructor
    · intro h; cases h; exact .nil
    · intro h; cases h; rfl
  | cons x xs ih =>
    simp only [List.mapM_cons, StateT.run_bind, StateT.run_pure]
    constructor
    · intro h
      obtain ⟨⟨y, st1⟩, hx, h⟩ := Option.bind_eq_some_iff.mp h
      obtain ⟨⟨zs, st2⟩, hxs, h⟩ := Option.bind_eq_some_iff.mp h
      cases h
      exact .cons hx (ih.mp hxs)
    · intro h
      cases h with
      | cons hx h =>
        refine Option.bind_eq_some_iff.mpr ⟨_, hx, Option.bind_eq_some_iff.mpr ⟨_, ih.mpr h, rfl⟩⟩

namespace Threaded

variable {M M' : α → σ → β → σ → Prop} {xs : List α} {ys : List β} {st st' : σ}

theorem forall₂ {I : σ → Prop} {R : α → β → Prop} (h : Threaded M xs st ys st')
    (hM : ∀ x ∈ xs, ∀ st y st', I st → M x st y st' → I st' ∧ R x y) (hst : I st) :
    I st' ∧ List.Forall₂ R xs ys := by
  induction h with
  | nil => exact ⟨hst, .nil⟩
  | cons hx _ ih =>
    obtain ⟨hI, hR⟩ := hM _ (by simp) _ _ _ hst hx
    obtain ⟨hI', hRs⟩ := ih (fun x hx => hM x (by simp [hx])) hI
    exact ⟨hI', .cons hR hRs⟩

theorem forall_mem {Q : β → Prop} (h : Threaded M xs st ys st')
    (hM : ∀ x ∈ xs, ∀ st y st', M x st y st' → Q y) : ∀ y ∈ ys, Q y := by
  obtain ⟨_, hall⟩ := h.forall₂ (I := fun _ => True) (R := fun _ y => Q y)
    (fun x hx st y st' _ hxy => ⟨.intro, hM x hx st y st' hxy⟩) .intro
  intro y hy
  obtain ⟨_, _, hQ⟩ := exists_of_forall₂_right hall hy
  exact hQ

theorem length_eq (h : Threaded M xs st ys st') : xs.length = ys.length := by
  induction h with
  | nil => rfl
  | cons _ _ ih => rw [List.length_cons, List.length_cons, ih]

theorem imp (h : Threaded M xs st ys st') (hM : ∀ x ∈ xs, ∀ st y st', M x st y st' → M' x st y st') :
    Threaded M' xs st ys st' := by
  induction h with
  | nil => exact .nil
  | cons hx _ ih => exact .cons (hM _ (by simp) _ _ _ hx) (ih fun x hx => hM x (by simp [hx]))

end Threaded

theorem exists_threads {f : α → StateT σ Option β} {xs : List α}
    (hf : ∀ x ∈ xs, ∀ st, ∃ y st', (f x).run st = some (y, st')) (st : σ) :
    ∃ ys st', Threads f xs st ys st' := by
  induction xs generalizing st with
  | nil => exact ⟨[], st, .nil⟩
  | cons x xs ih =>
    obtain ⟨y, st', hx⟩ := hf x (by simp) st
    obtain ⟨ys, st'', h⟩ := ih (fun x hx => hf x (by simp [hx])) st'
    exact ⟨y :: ys, st'', .cons hx h⟩

/-- No variable is quantified, so each is called by its position. -/
structure Naming.Plain (n : Naming) : Prop where
  quantified : n.quantified = []
  names : ∀ e ∈ n.names, e.2 = "t" ++ toString e.1

namespace Store

variable {s : Store} {θ : Valuation}

theorem nameOf_of_plain {n : Naming} (hn : n.Plain) (v : Var) (hint : Option String) :
    (n.nameOf v hint).1 = "t" ++ toString v ∧ (n.nameOf v hint).2.Plain := by
  rw [Naming.nameOf]
  cases hget : Assoc.get? n.names v with
  | some name => exact ⟨hn.names _ (Assoc.mem_of_get? hget), hn⟩
  | none =>
    rw [if_neg (by rw [hn.quantified]; exact List.not_mem_nil)]
    refine ⟨rfl, hn.quantified, fun e he => ?_⟩
    rcases List.mem_append.mp he with he | he
    · exact hn.names e he
    · rw [List.mem_singleton] at he
      rw [he]

variable {k : Nat} {nm nm' : Naming} {n : NamedType}

variable {v : Var} {t arg ret : Ty} {name : String} {args : List Ty} {fields : List (String × Ty)}
  {ext : Option Var}

theorem readType_var : s.readType (k + 1) (.var v) =
    match s.content v with
    | .bound t => s.readType k t
    | .poisoned => pure .error
    | .unbound _ hint =>
      (do let name ← modifyGet (Naming.nameOf (s.root v) hint); pure (.var name)) := rfl

theorem readType_bound (h : s.content v = .bound t) :
    (s.readType (k + 1) (.var v)).run nm = (s.readType k t).run nm := by
  rw [readType_var, h]

theorem readType_poisoned (h : s.content v = .poisoned) :
    (s.readType (k + 1) (.var v)).run nm = some (.error, nm) := by
  rw [readType_var, h]; rfl

theorem readType_unbound {rank : Rank} {hint : Option String}
    (h : s.content v = .unbound rank hint) : (s.readType (k + 1) (.var v)).run nm =
      some (.var (nm.nameOf (s.root v) hint).1, (nm.nameOf (s.root v) hint).2) := by
  rw [readType_var, h]; rfl

theorem readType_func : (s.readType (k + 1) (.func arg ret)).run nm = some (n, nm') ↔
      ∃ a r nm1, (s.readType k arg).run nm = some (a, nm1) ∧
        (s.readType k ret).run nm1 = some (r, nm') ∧ n = .func a r := by
  constructor
  · intro h
    obtain ⟨⟨a, nm1⟩, ha, h⟩ := Option.bind_eq_some_iff.mp h
    obtain ⟨⟨r, nm2⟩, hr, h⟩ := Option.bind_eq_some_iff.mp h
    cases h
    exact ⟨a, r, nm1, ha, hr, rfl⟩
  · rintro ⟨a, r, nm1, ha, hr, rfl⟩
    exact Option.bind_eq_some_iff.mpr ⟨_, ha, Option.bind_eq_some_iff.mpr ⟨_, hr, rfl⟩⟩

theorem readType_named : s.readType (k + 1) (.app name args) =
    match s.aliases.expand name args with
    | some (.ok t) => s.readType k t
    | _ => (do let ts ← args.mapM (s.readType k); pure (.app name ts)) := rfl

theorem readType_expanded (h : s.aliases.expand name args = some (.ok t)) :
    (s.readType (k + 1) (.app name args)).run nm = (s.readType k t).run nm := by
  rw [readType_named, h]

theorem readType_app (h : ∀ t, s.aliases.expand name args ≠ some (.ok t)) :
    (s.readType (k + 1) (.app name args)).run nm = some (n, nm') ↔
      ∃ ts, Threads (s.readType k) args nm ts nm' ∧ n = .app name ts := by
  have heq : s.readType (k + 1) (.app name args) =
      (do let ts ← args.mapM (s.readType k); pure (.app name ts)) := by
    rw [readType_named]
    split
    · rename_i t ht; exact absurd ht (h t)
    · rfl
  rw [heq]
  constructor
  · intro h
    obtain ⟨⟨ts, nm1⟩, hts, h⟩ := Option.bind_eq_some_iff.mp h
    cases h
    exact ⟨ts, mapM_run_eq_some.mp hts, rfl⟩
  · rintro ⟨ts, hts, rfl⟩
    exact Option.bind_eq_some_iff.mpr ⟨_, mapM_run_eq_some.mpr hts, rfl⟩

/-- Read one field of a record. -/
def readField (s : Store) (k : Nat) (f : String × Ty) : StateT Naming Option (String × NamedType) :=
  do
    let u ← s.readType k f.2
    pure (f.1, u)

theorem readField_run {f : String × Ty} {g : String × NamedType} :
    (s.readField k f).run nm = some (g, nm') ↔
      (s.readType k f.2).run nm = some (g.2, nm') ∧ f.1 = g.1 := by
  constructor
  · intro h
    obtain ⟨⟨u, nm1⟩, hu, h⟩ := Option.bind_eq_some_iff.mp h
    cases h
    exact ⟨hu, rfl⟩
  · rintro ⟨hu, hk⟩
    exact Option.bind_eq_some_iff.mpr ⟨_, hu, by rw [hk]; rfl⟩

theorem readType_record : (s.readType (k + 1) (.record fields ext)).run nm = some (n, nm') ↔
      ∃ fs nm1, Threads (s.readField k) fields nm fs nm1 ∧
        match ext with
        | none => n = .record fs none ∧ nm' = nm1
        | some v => ∃ rest, (s.readType k (.var v)).run nm1 = some (rest, nm') ∧
            n = closeRecord fs rest := by
  constructor
  · intro h
    obtain ⟨⟨fs, nm1⟩, hfs, h⟩ := Option.bind_eq_some_iff.mp h
    refine ⟨fs, nm1, mapM_run_eq_some.mp hfs, ?_⟩
    cases ext with
    | none => cases h; exact ⟨rfl, rfl⟩
    | some v =>
      obtain ⟨⟨rest, nm2⟩, hrest, h⟩ := Option.bind_eq_some_iff.mp h
      cases h
      exact ⟨rest, hrest, rfl⟩
  · rintro ⟨fs, nm1, hfs, h⟩
    refine Option.bind_eq_some_iff.mpr ⟨_, mapM_run_eq_some.mpr hfs, ?_⟩
    cases ext with
    | none => obtain ⟨rfl, rfl⟩ := h; rfl
    | some v =>
      obtain ⟨rest, hrest, rfl⟩ := h
      exact Option.bind_eq_some_iff.mpr ⟨_, hrest, rfl⟩

theorem readType_induction {motive : Nat → Ty → Naming → NamedType → Naming → Prop}
    (bound : ∀ {k v t nm n nm'}, s.content v = .bound t → motive k t nm n nm' →
      motive (k + 1) (.var v) nm n nm')
    (poisoned : ∀ {k v nm}, s.content v = .poisoned → motive (k + 1) (.var v) nm .error nm)
    (unbound : ∀ {k v rank hint nm}, s.content v = .unbound rank hint → motive (k + 1) (.var v) nm
      (.var (nm.nameOf (s.root v) hint).1) (nm.nameOf (s.root v) hint).2)
    (func : ∀ {k arg ret nm a nm1 r nm'}, motive k arg nm a nm1 → motive k ret nm1 r nm' →
      motive (k + 1) (.func arg ret) nm (.func a r) nm')
    (expanded : ∀ {k name args t nm n nm'}, s.aliases.expand name args = some (.ok t) →
      motive k t nm n nm' → motive (k + 1) (.app name args) nm n nm')
    (app : ∀ {k name args nm ts nm'}, (∀ t, s.aliases.expand name args ≠ some (.ok t)) →
      Threaded (motive k) args nm ts nm' → motive (k + 1) (.app name args) nm (.app name ts) nm')
    (record : ∀ {k fields ext nm} {fs : List (String × NamedType)} {nm1 n nm'},
      Threaded (fun f nm g nm' => f.1 = g.1 ∧ motive k f.2 nm g.2 nm') fields nm fs nm1 →
      (match ext with
        | none => n = .record fs none ∧ nm' = nm1
        | some v => ∃ rest, motive k (.var v) nm1 rest nm' ∧ n = closeRecord fs rest) →
      motive (k + 1) (.record fields ext) nm n nm')
    (h : (s.readType k t).run nm = some (n, nm')) : motive k t nm n nm' := by
  induction k generalizing t nm n nm' with
  | zero => cases h
  | succ k ih =>
    cases t with
    | var v =>
      cases hc : s.content v with
      | bound t => rw [readType_bound hc] at h; exact bound hc (ih h)
      | poisoned => rw [readType_poisoned hc] at h; cases h; exact poisoned hc
      | unbound rank hint => rw [readType_unbound hc] at h; cases h; exact unbound hc
    | func arg ret =>
      obtain ⟨a, r, nm1, ha, hr, rfl⟩ := readType_func.mp h
      exact func (ih ha) (ih hr)
    | app name args =>
      by_cases hex : ∃ t, s.aliases.expand name args = some (.ok t)
      · obtain ⟨t, hex⟩ := hex
        rw [readType_expanded hex] at h
        exact expanded hex (ih h)
      · have hne : ∀ t, s.aliases.expand name args ≠ some (.ok t) := fun t ht => hex ⟨t, ht⟩
        obtain ⟨ts, hts, rfl⟩ := (readType_app hne).mp h
        exact app hne (hts.imp fun _ _ _ _ _ hrun => ih hrun)
    | record fields ext =>
      obtain ⟨fs, nm1, hfs, hend⟩ := readType_record.mp h
      refine record (hfs.imp fun f _ nm g nm' hrun => ?_) ?_
      · obtain ⟨hrun, hkey⟩ := readField_run.mp hrun
        exact ⟨hkey, ih hrun⟩
      · cases ext with
        | none => exact hend
        | some v => exact hend.imp fun rest hrest => ⟨ih hrest.1, hrest.2⟩

theorem readType_succ (h : (s.readType k t).run nm = some (n, nm')) :
    (s.readType (k + 1) t).run nm = some (n, nm') := by
  refine readType_induction
    (motive := fun k t nm n nm' => (s.readType (k + 1) t).run nm = some (n, nm'))
    (fun hc ih => (readType_bound hc).trans ih) (fun hc => readType_poisoned hc)
    (fun hc => readType_unbound hc) (fun ha hr => readType_func.mpr ⟨_, _, _, ha, hr, rfl⟩)
    (fun hex ih => (readType_expanded hex).trans ih)
    (fun hne hts => (readType_app hne).mpr ⟨_, hts, rfl⟩) (fun hfs hend => ?_) h
  exact readType_record.mpr ⟨_, _, hfs.imp fun f _ st g st' hf => readField_run.mpr hf.symm, hend⟩

/-! ## What is read is what the type means -/

theorem named_close (ms : List (String × Meaning)) (m : Meaning) :
    (Meaning.close ms m).named = closeRecord (Assoc.mapValues Meaning.named ms) m.named := by
  cases m with
  | record more rest =>
    simp only [Meaning.close, Meaning.named_record, closeRecord, Assoc.mapValues_union]
  | var r => simp only [Meaning.close, Meaning.named_record, Meaning.named, closeRecord]; rfl
  | _ => simp only [Meaning.close, Meaning.named_record, Meaning.named, closeRecord]; rfl

/-- Reading a type off the store shows what the type means. -/
theorem Reading.readType (h0 : s.Reading θ) (h : s.Formed) (hu : s.aliases.Usable)
    (hrun : (s.readType k t).run nm = some (n, nm')) (ht : t.Fits s.size) (hnm : nm.Plain) :
    nm'.Plain ∧ ∃ m, Denotes s.aliases θ t m ∧ n = m.named := by
  refine readType_induction (motive := fun _ t nm n nm' => t.Fits s.size → nm.Plain →
    nm'.Plain ∧ ∃ m, Denotes s.aliases θ t m ∧ n = m.named)
    ?bound ?poisoned ?unbound ?func ?expanded ?app ?record hrun ht hnm
  case bound =>
    intro _ v t nm n nm' hc ih _ hnm
    have hk : s.kind v = .bound t := kind_eq_bound.mpr hc
    obtain ⟨hnm', m, hm, rfl⟩ := ih (h.fits v t hk) hnm
    refine ⟨hnm', m, ?_, rfl⟩
    rw [hm.unique (h0.bound v t hk)]
    exact .var v
  case poisoned =>
    intro _ v nm hc ht hnm
    refine ⟨hnm, _, .var v, ?_⟩
    rw [h0.poisoned v (ht.lt (by simp)) (kind_eq_poisoned.mpr hc), Meaning.named]
  case unbound =>
    intro _ v rank hint nm hc _ hnm
    obtain ⟨hname, hplain⟩ := nameOf_of_plain hnm (s.root v) hint
    refine ⟨hplain, _, .var v, ?_⟩
    rw [hname, h0.free v (kind_eq_free.mpr ⟨rank, hint, hc⟩), Meaning.named]
  case func =>
    intro _ arg ret nm a nm1 r nm' iha ihr ht hnm
    obtain ⟨ha, hr⟩ := Ty.over_func.mp ht
    obtain ⟨hnm1, ma, hma, rfl⟩ := iha ha hnm
    obtain ⟨hnm', mr, hmr, rfl⟩ := ihr hr hnm1
    exact ⟨hnm', _, .func hma hmr, by rw [Meaning.named]⟩
  case expanded =>
    intro _ name args t nm n nm' hex ih ht hnm
    obtain ⟨hnm', m, hm, rfl⟩ := ih (hu.expand_over hex (Ty.over_app.mp ht)) hnm
    exact ⟨hnm', m, .expanded hex hm, rfl⟩
  case app =>
    intro _ name args nm ts nm' hne hts ht hnm
    obtain ⟨hnm', hall⟩ := hts.forall₂ (I := Naming.Plain)
      (fun a ha _ _ _ hnm h => h (Ty.over_app.mp ht a ha) hnm) hnm
    obtain ⟨ms, hms, rfl⟩ := exists_map_of_forall₂ hall
    exact ⟨hnm', _, (Denotes.app_iff hne).mpr ⟨ms, rfl, hms⟩, by rw [Meaning.named]⟩
  case record =>
    intro _ fields ext nm fs nm1 n nm' hfs hend ht hnm
    obtain ⟨_, hf, hext⟩ := Ty.over_record.mp ht
    obtain ⟨hnm1, hall⟩ := hfs.forall₂ (I := Naming.Plain)
      (R := fun f g => f.1 = g.1 ∧ ∃ m, Denotes s.aliases θ f.2 m ∧ g.2 = m.named)
      (fun f hmem _ _ _ hnm h => (h.2 (hf f hmem) hnm).imp_right fun hm => ⟨h.1, hm⟩) hnm
    obtain ⟨ms, hms, rfl⟩ := Assoc.exists_mapValues_of_related hall
    cases ext with
    | none =>
      obtain ⟨rfl, rfl⟩ := hend
      refine ⟨hnm1, _, Denotes.record_iff.mpr ⟨ms, rfl, hms⟩, ?_⟩
      rw [Option.map_none, Meaning.row, Meaning.named_record]
      rfl
    | some v =>
      obtain ⟨rest, ih, rfl⟩ := hend
      obtain ⟨hnm', m, hm, rfl⟩ := ih (Ty.over_var.mpr (hext v rfl)) hnm1
      refine ⟨hnm', _, Denotes.record_iff.mpr ⟨ms, rfl, hms⟩, ?_⟩
      rw [Option.map_some, Meaning.row, named_close, Denotes.var_iff.mp hm]

/-! ## Reading comes to an end -/

/-- With enough fuel, `t` can be read. -/
def Readable (s : Store) (t : Ty) : Prop :=
  EnoughFuel fun k => ∀ nm, ∃ n nm', (s.readType k t).run nm = some (n, nm')

theorem Readable.func (ha : s.Readable arg) (hr : s.Readable ret) : s.Readable (.func arg ret) := by
  refine .of_succ ((ha.and hr).mono fun k ⟨ha, hr⟩ nm => ?_)
  obtain ⟨a, nm1, ha⟩ := ha nm
  obtain ⟨r, nm2, hr⟩ := hr nm1
  exact ⟨_, _, readType_func.mpr ⟨a, r, nm1, ha, hr, rfl⟩⟩

theorem Readable.record (hf : ∀ f ∈ fields, s.Readable f.2)
    (hext : ∀ v, ext = some v → s.Readable (.var v)) : s.Readable (.record fields ext) := by
  have hfields := EnoughFuel.forall_mem hf
  have hrest : EnoughFuel fun k => ∀ v, ext = some v → ∀ nm, ∃ n nm',
      (s.readType k (.var v)).run nm = some (n, nm') := by
    cases ext with
    | none => exact .intro fun _ v hv => by cases hv
    | some v => exact (hext v rfl).mono fun k hk w hw => by cases hw; exact hk
  refine .of_succ ((hfields.and hrest).mono fun k ⟨hf, hrest⟩ nm => ?_)
  obtain ⟨fs, nm1, hfs⟩ := exists_threads (f := s.readField k) (fun f hmem nm => by
    obtain ⟨u, nm', hu⟩ := hf f hmem nm
    exact ⟨(f.1, u), nm', readField_run.mpr ⟨hu, rfl⟩⟩) nm
  cases ext with
  | none => exact ⟨_, nm1, readType_record.mpr ⟨fs, nm1, hfs, rfl, rfl⟩⟩
  | some v =>
    obtain ⟨rest, nm2, hr⟩ := hrest v rfl nm1
    exact ⟨_, nm2, readType_record.mpr ⟨fs, nm1, hfs, rest, hr, rfl⟩⟩

/-- Bindings and aliases lead on from the type only finitely often. -/
inductive Ends (s : Store) : Ty → Prop where
  | bound {v : Var} {t : Ty} : s.content v = .bound t → Ends s t → Ends s (.var v)
  | poisoned {v : Var} : s.content v = .poisoned → Ends s (.var v)
  | unbound {v : Var} {rank : Rank} {hint : Option String} : s.content v = .unbound rank hint →
      Ends s (.var v)
  | func {arg ret : Ty} : Ends s arg → Ends s ret → Ends s (.func arg ret)
  | expanded {name : String} {args : List Ty} {t : Ty} :
      s.aliases.expand name args = some (.ok t) → Ends s t → Ends s (.app name args)
  | app {name : String} {args : List Ty} : (∀ t, s.aliases.expand name args ≠ some (.ok t)) →
      (∀ a ∈ args, Ends s a) → Ends s (.app name args)
  | record {fields : List (String × Ty)} {ext : Option Var} : (∀ f ∈ fields, Ends s f.2) →
      (∀ v, ext = some v → Ends s (.var v)) → Ends s (.record fields ext)

theorem ends_of_vars (ha : WellFounded fun c name => c ∈ s.aliases.mentions name)
    (ht : ∀ v ∈ t.vars, s.Ends (.var v)) : s.Ends t := by
  refine AliasTable.induction_of_grounded ha (fun _ _ => .func) (fun fields ext => ⟨fun h => ?_,
    fun h => .record h.1 h.2⟩) (fun _ _ => .app) (fun _ _ _ => .expanded) ht
  cases h with | record hf hext => exact ⟨hf, hext⟩

theorem Grounded.ends (hg : s.Grounded) (hf : s.Forest)
    (ha : WellFounded fun c name => c ∈ s.aliases.mentions name) (t : Ty) : s.Ends t := by
  suffices ∀ v, s.Ends (.var v) from ends_of_vars ha fun v _ => this v
  intro v
  induction v using (hg.mentions hf).induction with
  | _ v ih =>
    cases hc : s.content v with
    | bound t =>
      exact .bound hc (ends_of_vars ha fun w hw => ih w ⟨t, kind_eq_bound.mpr hc, hw⟩)
    | poisoned => exact .poisoned hc
    | unbound rank hint => exact .unbound hc

theorem Ends.readable (h : s.Ends t) : s.Readable t := by
  induction h with
  | bound hc _ ih => exact .of_succ (ih.mono fun k hk nm => by rw [readType_bound hc]; exact hk nm)
  | poisoned hc => exact .of_succ (.intro fun k nm => ⟨_, _, readType_poisoned hc⟩)
  | unbound hc => exact .of_succ (.intro fun k nm => ⟨_, _, readType_unbound hc⟩)
  | func _ _ iha ihr => exact .func iha ihr
  | expanded hex _ ih =>
    exact .of_succ (ih.mono fun k hk nm => by rw [readType_expanded hex]; exact hk nm)
  | app hne _ ih =>
    refine .of_succ ((EnoughFuel.forall_mem ih).mono fun k hk nm => ?_)
    obtain ⟨ts, nm', hts⟩ := exists_threads hk nm
    exact ⟨_, nm', (readType_app hne).mpr ⟨ts, hts, rfl⟩⟩
  | record _ _ ihf ihext => exact .record ihf ihext

/-- Where bindings come to an end, every type can be read. -/
theorem Grounded.readable (hg : s.Grounded) (h : s.Formed) (hu : s.aliases.Usable) (t : Ty) :
    s.Readable t := (hg.ends h.forest hu.grounded t).readable

/-! ## Snapshots -/

theorem Reading.exists_of_snapshot (h0 : s.Reading θ) (h : s.Formed) (hu : s.aliases.Usable)
    (ht : t.Fits s.size) (hn : s.snapshot k t = some n) :
    ∃ m, Denotes s.aliases θ t m ∧ n = m.named := by
  obtain ⟨⟨n', nm'⟩, hrun, rfl⟩ := Option.map_eq_some_iff.mp hn
  exact (h0.readType h hu hrun ht ⟨rfl, fun e he => by cases he⟩).2

theorem Reading.snapshot (h0 : s.Reading θ) (hg : s.Grounded) (h : s.Formed) (hu : s.aliases.Usable)
    (ht : t.Fits s.size) {m : Meaning} (hm : Denotes s.aliases θ t m) :
    EnoughFuel fun k => s.snapshot k t = some m.named := by
  refine (hg.readable h hu t).mono fun k hk => ?_
  obtain ⟨n, nm', hrun⟩ := hk {}
  have hsnap : s.snapshot k t = some n := Option.map_eq_some_iff.mpr ⟨_, hrun, rfl⟩
  obtain ⟨m', hm', rfl⟩ := h0.exists_of_snapshot h hu ht hsnap
  rw [hsnap, hm'.unique hm]

theorem Reading.eq_of_snapshot (h0 : s.Reading θ) (h : s.Formed) (hu : s.aliases.Usable) {l r : Ty}
    (hl : l.Fits s.size) (hr : r.Fits s.size) {k' : Nat} (hln : s.snapshot k l = some n)
    (hrn : s.snapshot k' r = some n) : ∃ m, Denotes s.aliases θ l m ∧ Denotes s.aliases θ r m := by
  obtain ⟨m, hm, rfl⟩ := h0.exists_of_snapshot h hu hl hln
  obtain ⟨m', hm', hmm⟩ := h0.exists_of_snapshot h hu hr hrn
  exact ⟨m, hm, Meaning.named_inj hmm ▸ hm'⟩

end Store
/-! ## Bindings -/

variable {s : Store} {k : Nat} {schemes : Context} {bindings : List (String × Polytype)}

def Context.typed (schemes : Context) : List (String × List Var × Ty) :=
  schemes.filterMap fun e => (e.2.typeOf? e.1).map fun t => (e.1, e.2.quantifiers, t)

theorem Context.mem_typed {e : String × List Var × Ty} : e ∈ schemes.typed ↔
    ∃ scheme, (e.1, scheme) ∈ schemes ∧ scheme.typeOf? e.1 = some e.2.2 ∧
      scheme.quantifiers = e.2.1 := by
  simp only [typed, List.mem_filterMap, Option.map_eq_some_iff]
  constructor
  · rintro ⟨⟨name, scheme⟩, hmem, t, ht, rfl⟩
    exact ⟨scheme, hmem, ht, rfl⟩
  · rintro ⟨scheme, hmem, ht, hq⟩
    exact ⟨_, hmem, _, ht, by rw [hq]⟩

theorem readBindings_eq_some : readBindings s k schemes = some bindings ↔
    Assoc.Related (fun e p => s.polytype k e.1 e.2 = some p) schemes.typed bindings := by
  induction schemes generalizing bindings with
  | nil => simp [readBindings, Context.typed, Assoc.Related, eq_comm]
  | cons e rest ih =>
    obtain ⟨name, scheme⟩ := e
    rw [readBindings, Context.typed, List.filterMap_cons, ← Context.typed]
    cases ht : scheme.typeOf? name with
    | none =>
      rw [Option.map_none, ← ih]
      cases readBindings s k rest <;> rfl
    | some t =>
      rw [Option.map_some, Assoc.Related, List.forall₂_cons_left_iff]
      constructor
      · intro h
        cases hrest : readBindings s k rest with
        | none => rw [hrest] at h; cases h
        | some bs =>
          rw [hrest] at h
          obtain ⟨p, hp, rfl⟩ := Option.map_eq_some_iff.mp h
          exact ⟨_, bs, ⟨rfl, hp⟩, ih.mp hrest, rfl⟩
      · rintro ⟨⟨_, p⟩, bs, ⟨rfl, hp⟩, hrest, rfl⟩
        rw [ih.mpr hrest]
        exact Option.map_eq_some_iff.mpr ⟨p, hp, rfl⟩

theorem exists_scheme_of_mem (h : readBindings s k schemes = some bindings)
    {b : String × Polytype} (hb : b ∈ bindings) : ∃ scheme t, (b.1, scheme) ∈ schemes ∧
      scheme.typeOf? b.1 = some t ∧ s.polytype k scheme.quantifiers t = some b.2 := by
  obtain ⟨e, he, hkey, hp⟩ := (readBindings_eq_some.mp h).exists_left hb
  obtain ⟨scheme, hmem, ht, hq⟩ := Context.mem_typed.mp he
  rw [← hkey]
  exact ⟨scheme, e.2.2, hmem, ht, by rw [hq]; exact hp⟩

/-- Reading skips only names without a type. -/
theorem mem_keys_readBindings (h : readBindings s k schemes = some bindings) {name : String} :
    name ∈ Assoc.keys bindings ↔
      ∃ scheme t, (name, scheme) ∈ schemes ∧ scheme.typeOf? name = some t := by
  rw [← (readBindings_eq_some.mp h).keys_eq, Assoc.keys, List.mem_map]
  constructor
  · rintro ⟨e, he, rfl⟩
    obtain ⟨scheme, hmem, ht, _⟩ := Context.mem_typed.mp he
    exact ⟨scheme, _, hmem, ht⟩
  · rintro ⟨scheme, t, hmem, ht⟩
    exact ⟨(name, scheme.quantifiers, t), Context.mem_typed.mpr ⟨scheme, hmem, ht, rfl⟩, rfl⟩

end TypeSolver
