import TypeSolver.Proofs.Reading

/-!
# TypeSolver.Proofs.Lookups

The readings of the program and what they do to the store. `Relinked s s'` says that `s'` is left of
`s` when variables are looked up, one after the other. Such a store says the same as before
(`Relinked.view`), and each reading of the program finds what the store says (`occurs_eq`,
`adjustRanks_eq`, `generalize_eq`, `takeSnapshot_finds`, `gather_finds`), and leaves a store that is
relinked.
-/

namespace TypeSolver

/-! ## Steps with more fuel -/

/-- What the step returns, the other step returns too. -/
def Prolongs {σ α : Type} (step step' : StateT σ Option α) : Prop :=
  ∀ st x, step.run st = some x → step'.run st = some x

namespace Prolongs

variable {σ α β : Type} {step step' : StateT σ Option α}

theorem refl (step : StateT σ Option α) : Prolongs step step := fun _ _ h => h

theorem bind {next next' : α → StateT σ Option β} (h : Prolongs step step')
    (hnext : ∀ x, Prolongs (next x) (next' x)) : Prolongs (step >>= next) (step' >>= next') := by
  intro st y hrun
  obtain ⟨⟨x, st1⟩, hx, hy⟩ := Option.bind_eq_some_iff.mp hrun
  exact Option.bind_eq_some_iff.mpr ⟨_, h st _ hx, hnext x st1 y hy⟩

theorem mapM {step step' : α → StateT σ Option β} (h : ∀ x, Prolongs (step x) (step' x))
    (xs : List α) : Prolongs (xs.mapM step) (xs.mapM step') := by
  induction xs with
  | nil => exact refl _
  | cons x xs ih =>
    rw [List.mapM_cons, List.mapM_cons]
    exact (h x).bind fun y => ih.bind fun ys => refl _

end Prolongs

namespace Store

variable {s s' : Store} {v : Var}

/-! ## Lookups -/

/-- Variables of `s` are looked up, one after the other, and `s'` is what is left. -/
inductive Relinked (s : Store) : Store → Prop where
  | refl : Relinked s s
  | find {s' : Store} (v : Var) : Relinked s s' → Relinked s (s'.find v).2

theorem find_of_size_le (hv : s.size ≤ v) : (s.find v).2 = s := by
  have hn : s.slots[v]? = none := Array.getElem?_eq_none hv
  have hrelink : ∀ r fuel, relink r fuel v s.slots = s.slots := by
    intro r fuel
    cases fuel with
    | zero => rfl
    | succ fuel => rw [relink]; simp only [hn]
  rw [find]
  split
  · rw [hrelink]
  · rfl

namespace Relinked

variable {s s' s'' : Store}

theorem trans (h : Relinked s s') (h' : Relinked s' s'') : Relinked s s'' := by
  induction h' with
  | refl => exact h
  | find v _ ih => exact .find v ih

theorem single (s : Store) (v : Var) : Relinked s (s.find v).2 := .find v .refl

theorem aliases (h : Relinked s s') : s'.aliases = s.aliases := by
  induction h with
  | refl => rfl
  | find v _ ih => rw [find_aliases, ih]

theorem view (h : Relinked s s') (hs : s.LinksEnd) : s'.LinksEnd ∧ s'.size = s.size ∧
    (∀ w, s'.root w = s.root w) ∧ ∀ w, s'.content w = s.content w := by
  induction h with
  | refl => exact ⟨hs, rfl, fun _ => rfl, fun _ => rfl⟩
  | find v _ ih =>
    obtain ⟨he, hsize, hroot, hcontent⟩ := ih
    obtain ⟨he', hroot', hcontent'⟩ := he.find_view v
    exact ⟨he', (he.find_size v).trans hsize, fun w => (hroot' w).trans (hroot w),
      fun w => (hcontent' w).trans (hcontent w)⟩

section

variable (h : Relinked s s') (hs : s.LinksEnd)

include h hs

theorem linksEnd : s'.LinksEnd := (h.view hs).1

theorem size : s'.size = s.size := (h.view hs).2.1

theorem root (w : Var) : s'.root w = s.root w := (h.view hs).2.2.1 w

theorem content (w : Var) : s'.content w = s.content w := (h.view hs).2.2.2 w

theorem kind (w : Var) : s'.kind w = s.kind w := by rw [Store.kind, h.content hs, Store.kind]

theorem rank? (w : Var) : s'.rank? w = s.rank? w := by rw [Store.rank?, h.content hs, Store.rank?]

theorem isInside (outer : Rank) : s'.isInside outer = s.isInside outer := by
  funext r
  rw [Store.isInside, h.rank? hs, Store.isInside]

theorem alike : Alike s s' := ⟨h.size hs, h.aliases, h.root hs, h.kind hs⟩

end

theorem forest (h : Relinked s s') (hs : s.Forest) : s'.Forest := by
  induction h with
  | refl => exact hs
  | find v _ ih => exact ⟨(ih.linksEnd.find_view v).1, (find_shortened ih.linksEnd v).inside ih.inside⟩

end Relinked


/-- Look up `v` in a store that is left of `s`. -/
theorem Relinked.find_eq (h : Relinked s s') (hs : s.LinksEnd) (v : Var) :
    ∃ s'', s'.find v = (s.root v, s'') ∧ Relinked s s'' := by
  refine ⟨(s'.find v).2, ?_, .find v h⟩
  rw [← h.root hs, ← find_fst]

theorem Relinked.findAll_eq (h : Relinked s s') (hs : s.LinksEnd) (vs : List Var) :
    ∃ s'', s'.findAll vs = (vs.map s.root, s'') ∧ Relinked s s'' := by
  induction vs generalizing s' with
  | nil => exact ⟨s', rfl, h⟩
  | cons v vs ih =>
    obtain ⟨s1, hfind, h1⟩ := h.find_eq hs v
    obtain ⟨s2, hall, h2⟩ := ih h1
    exact ⟨s2, by rw [findAll, hfind]; simp only [hall, List.map_cons], h2⟩

/-! ## Searches -/

theorem mem_foldl_visit_of_mem {k : Nat} (hk : ∀ (v : Var) (seen : List Var) (x : Var),
    x ∈ seen → x ∈ s.visit k seen v) {vs seen : List Var} {x : Var} (hx : x ∈ seen) :
    x ∈ vs.foldl (s.visit k) seen := by
  induction vs generalizing seen with
  | nil => exact hx
  | cons v vs ih => exact ih (hk v seen x hx)

theorem mem_visit_of_mem (k : Nat) (v : Var) (seen : List Var) (x : Var) (hx : x ∈ seen) :
    x ∈ s.visit k seen v := by
  induction k generalizing v seen x with
  | zero => exact hx
  | succ k ih =>
    rw [visit]
    split
    · exact hx
    · split
      · exact mem_foldl_visit_of_mem ih (.tail _ hx)
      · exact .tail _ hx

end Store

namespace Search

open Store

variable {s : Store} {target : Option Var} {q : Search} {seen : List Var}

/-- The search in `s` has come as far as to have seen `seen`, or both have seen the target. -/
structure Matches (s : Store) (target : Option Var) (q : Search) (seen : List Var) : Prop where
  relinked : Relinked s q.store
  seen : q.seen = seen ∨ ∃ r, target = some r ∧ r ∈ q.seen ∧ r ∈ seen

theorem foldl_matches {k : Nat} (hk : ∀ (v : Var) (q : Search) (seen : List Var),
    Matches s target q seen → Matches s target (visit target k q v) (s.visit k seen v))
    (vs : List Var) (h : Matches s target q seen) :
    Matches s target (vs.foldl (visit target k) q) (vs.foldl (s.visit k) seen) := by
  induction vs generalizing q seen with
  | nil => exact h
  | cons v vs ih => exact ih (hk v q seen h)

theorem visit_matches (hs : s.LinksEnd) (k : Nat) (v : Var) (q : Search) (seen : List Var)
    (h : Matches s target q seen) : Matches s target (visit target k q v) (s.visit k seen v) := by
  induction k generalizing v q seen with
  | zero => exact h
  | succ k ih =>
    rw [visit]
    split
    · rename_i hover
      cases target with
      | none => cases hover
      | some r =>
        have hr : r ∈ q.seen := of_decide_eq_true hover
        refine ⟨h.relinked, .inr ⟨r, rfl, hr, mem_visit_of_mem _ _ _ _ ?_⟩⟩
        rcases h.seen with heq | ⟨r', hr', _, hmem⟩
        · rwa [← heq]
        · cases hr'; exact hmem
    · rename_i hover
      have heq : q.seen = seen := by
        refine h.seen.resolve_right ?_
        rintro ⟨r, rfl, hr, _⟩
        exact hover (decide_eq_true hr)
      obtain ⟨s', hfind, h'⟩ := h.relinked.find_eq hs v
      rw [hfind, Store.visit]
      simp only [heq, h'.content hs]
      split
      · exact ⟨h', .inl rfl⟩
      · cases s.content (s.root v) with
        | bound t => exact foldl_matches ih t.vars ⟨h', .inl rfl⟩
        | unbound => exact ⟨h', .inl rfl⟩
        | poisoned => exact ⟨h', .inl rfl⟩

theorem through_matches (hs : s.LinksEnd) (t : Ty) (h : Matches s target q seen) :
    Matches s target (through target q t) (s.reachFrom seen t) := by
  rw [through, reachFrom, h.relinked.size hs]
  exact foldl_matches (fun v q seen => visit_matches hs s.size v q seen) _ h

theorem Matches.seen_eq (h : Matches s none q seen) : q.seen = seen := by
  refine h.seen.resolve_right ?_
  rintro ⟨r, hr, _⟩
  cases hr

theorem matches_start (s : Store) (target : Option Var) : Matches s target { store := s } [] :=
  ⟨.refl, .inl rfl⟩

theorem foldl_through_matches (hs : s.LinksEnd) (ts : List Ty) (h : Matches s none q seen) :
    Matches s none (ts.foldl (through none) q) (ts.foldl s.reachFrom seen) := by
  induction ts generalizing q seen with
  | nil => exact h
  | cons t ts ih => exact ih (through_matches hs t h)

end Search

namespace Store

variable {s s' : Store}

section Searches

variable (hs : s.LinksEnd)

include hs

theorem occurs_eq (r : Var) (t : Ty) :
    ∃ s', s.occurs r t = (decide (r ∈ s.reach t), s') ∧ Relinked s s' := by
  have h := Search.through_matches hs t (Search.matches_start s (some r))
  refine ⟨_, ?_, h.relinked⟩
  rw [occurs, Search.isOver, reach]
  congr 1
  rw [decide_eq_decide]
  rcases h.seen with heq | ⟨r', hr', hmem, hmem'⟩
  · rw [heq]
  · cases hr'
    exact iff_of_true hmem hmem'

theorem adjustRanks_eq (t : Ty) (rank : Rank) :
    ∃ s', s.adjustRanks t rank = s'.lowerRanks (s.reach t) rank ∧ Relinked s s' := by
  have h := Search.through_matches hs t (Search.matches_start s none)
  exact ⟨_, by rw [adjustRanks, h.seen_eq, reach], h.relinked⟩

theorem generalize_eq (header : Header) (outer : Rank) :
    ∃ s', s.generalize header outer = (s.generalizable header outer, s') ∧ Relinked s s' := by
  have h := Search.foldl_through_matches hs (Assoc.values header) (Search.matches_start s none)
  refine ⟨_, ?_, h.relinked⟩
  rw [generalize, generalizable, h.seen_eq, h.relinked.isInside hs]

theorem generalize_fst (header : Header) (outer : Rank) :
    (s.generalize header outer).1 = s.generalizable header outer := by
  obtain ⟨_, heq, _⟩ := generalize_eq hs header outer
  rw [heq]

theorem generalize_relinked (header : Header) (outer : Rank) :
    Relinked s (s.generalize header outer).2 := by
  obtain ⟨_, heq, h⟩ := generalize_eq hs header outer
  rw [heq]
  exact h

end Searches

theorem Relinked.visit (h : Relinked s s') (hs : s.LinksEnd) : s'.visit = s.visit := by
  funext k
  induction k with
  | zero => rfl
  | succ k ih =>
    funext seen v
    rw [Store.visit, Store.visit, ih, h.root hs, h.content hs]

theorem Relinked.reachFrom (h : Relinked s s') (hs : s.LinksEnd) : s'.reachFrom = s.reachFrom := by
  funext seen t
  rw [Store.reachFrom, Store.reachFrom, h.visit hs, h.size hs]

theorem Relinked.reach (h : Relinked s s') (hs : s.LinksEnd) (t : Ty) : s'.reach t = s.reach t := by
  rw [Store.reach, Store.reach, h.reachFrom hs]

theorem Relinked.generalizable (h : Relinked s s') (hs : s.LinksEnd) (header : Header)
    (outer : Rank) : s'.generalizable header outer = s.generalizable header outer := by
  rw [Store.generalizable, Store.generalizable, h.reachFrom hs, h.isInside hs]


/-! ## Readings -/

end Store

namespace Resolving

open Store

variable {α β : Type} {s : Store}

/-- From all that is left of `s` by lookups, the step reads what the view says, and leaves the
store relinked. -/
def Reads (s : Store) (step : StateT Resolving Option α) (view : StateT Naming Option α) : Prop :=
  ∀ s' n, Relinked s s' →
    (view.run n = none ∧ step.run ⟨s', n⟩ = none) ∨
    ∃ x n' s'', view.run n = some (x, n') ∧ step.run ⟨s', n⟩ = some (x, ⟨s'', n'⟩) ∧ Relinked s s''

namespace Reads

variable {step : StateT Resolving Option α} {view : StateT Naming Option α}

theorem pure (x : α) : Reads s (Pure.pure x) (Pure.pure x) :=
  fun s' n h => .inr ⟨x, n, s', rfl, rfl, h⟩

theorem failure : Reads s (Alternative.failure : StateT Resolving Option α) Alternative.failure :=
  fun _ _ _ => .inl ⟨rfl, rfl⟩

theorem bind {next : α → StateT Resolving Option β} {next' : α → StateT Naming Option β}
    (h : Reads s step view) (hnext : ∀ x, Reads s (next x) (next' x)) :
    Reads s (step >>= next) (view >>= next') := by
  intro s' n hs'
  simp only [StateT.run_bind, Option.bind_eq_bind]
  rcases h s' n hs' with ⟨hview, hstep⟩ | ⟨x, n1, s1, hview, hstep, hs1⟩
  · exact .inl ⟨by rw [hview]; rfl, by rw [hstep]; rfl⟩
  · rw [hview, hstep]
    exact hnext x s1 n1 hs1

theorem mapM {step : α → StateT Resolving Option β} {view : α → StateT Naming Option β}
    (h : ∀ x, Reads s (step x) (view x)) (xs : List α) : Reads s (xs.mapM step) (xs.mapM view) := by
  induction xs with
  | nil => exact pure []
  | cons x xs ih =>
    rw [List.mapM_cons, List.mapM_cons]
    exact (h x).bind fun y => ih.bind fun ys => pure (y :: ys)

end Reads

/-- Reading a type, the program finds what the store says. -/
theorem resolve_reads (hs : s.LinksEnd) (k : Nat) (t : Ty) :
    Reads s (resolve k t) (s.readType k t) := by
  induction k generalizing t with
  | zero => exact .failure
  | succ k ih =>
    cases t with
    | var v =>
      intro s' n h
      obtain ⟨s'', hfind, h'⟩ := h.find_eq hs v
      have hlook : (modifyGet (lookUp v) : StateT Resolving Option (Var × Content)).run ⟨s', n⟩ =
          some ((s.root v, s.content v), ⟨s'', n⟩) := by
        rw [← hs.content_root, ← h'.content hs]
        show some (lookUp v ⟨s', n⟩) = _
        rw [lookUp, hfind]
      rw [resolve, readType, StateT.run_bind, hlook]
      simp only [Option.bind_eq_bind, Option.bind_some]
      cases s.content v with
      | bound t => exact ih t s'' n h'
      | poisoned => exact .inr ⟨_, _, s'', rfl, rfl, h'⟩
      | unbound rank hint => exact .inr ⟨_, _, s'', rfl, rfl, h'⟩
    | func arg ret => exact (ih arg).bind fun a => (ih ret).bind fun r => .pure _
    | app name args =>
      intro s' n h
      rw [resolve, readType, StateT.run_bind, StateT.run_get]
      simp only [Option.pure_def, Option.bind_eq_bind, Option.bind_some, h.aliases]
      have hargs := (Reads.mapM ih args).bind fun ts => Reads.pure (NamedType.app name ts)
      rcases s.aliases.expand name args with _ | _ | t
      · exact hargs s' n h
      · exact hargs s' n h
      · exact ih t s' n h
    | record fields ext =>
      refine (Reads.mapM (fun f => (ih f.2).bind fun u => .pure (f.1, u)) fields).bind fun fs => ?_
      cases ext with
      | none => exact .pure _
      | some v => exact (ih (.var v)).bind fun rest => .pure _

theorem resolve_succ (k : Nat) (t : Ty) : Prolongs (resolve k t) (resolve (k + 1) t) := by
  induction k generalizing t with
  | zero => intro q x h; cases h
  | succ k ih =>
    cases t with
    | var v =>
      refine Prolongs.bind (.refl _) fun (r, c) => ?_
      cases c with
      | bound t => exact ih t
      | unbound => exact .refl _
      | poisoned => exact .refl _
    | func arg ret => exact (ih arg).bind fun a => (ih ret).bind fun r => .refl _
    | app name args =>
      refine Prolongs.bind (.refl _) fun q => ?_
      split
      · exact ih _
      · exact (Prolongs.mapM ih args).bind fun ts => .refl _
    | record fields ext =>
      refine (Prolongs.mapM (fun f => (ih f.2).bind fun u => .refl _) fields).bind fun fs => ?_
      cases ext with
      | none => exact .refl _
      | some v => exact (ih (.var v)).bind fun rest => .refl _

end Resolving

namespace Store

variable {α β : Type} {s s' : Store}

/-- A reading of the program finds what the view of `s` says, and leaves the store relinked. -/
def Finds (s : Store) (read : Option (α × Store)) (view : Option α) : Prop :=
  (view = none ∧ read = none) ∨ ∃ x s', view = some x ∧ read = some (x, s') ∧ Relinked s s'

namespace Finds

variable {read : Option (α × Store)} {view : Option α} {x : α}

theorem nothing : Finds s (none : Option (α × Store)) none := .inl ⟨rfl, rfl⟩

theorem found (h : Relinked s s') : Finds s (some (x, s')) (some x) := .inr ⟨x, s', rfl, rfl, h⟩

theorem view_eq (h : Finds s read view) (hread : read = some (x, s')) :
    view = some x ∧ Relinked s s' := by
  rcases h with ⟨_, hn⟩ | ⟨y, s1, hview, hy, h⟩
  · rw [hread] at hn; cases hn
  · rw [hread] at hy; cases hy; exact ⟨hview, h⟩

theorem exists_eq (h : Finds s read view) (hview : view = some x) :
    ∃ s', read = some (x, s') ∧ Relinked s s' := by
  rcases h with ⟨hn, _⟩ | ⟨y, s1, hy, hread, h⟩
  · rw [hview] at hn; cases hn
  · rw [hview] at hy; cases hy; exact ⟨s1, hread, h⟩

theorem map (h : Finds s read view) (f : α → β) :
    Finds s (read.map fun (x, s') => (f x, s')) (view.map f) := by
  rcases h with ⟨rfl, rfl⟩ | ⟨x, s', rfl, rfl, h⟩
  · exact .nothing
  · exact .found h

end Finds

theorem restRank_spec {v w : Var} {rank : Option Rank} (h : s.restRank v w = (rank, s')) :
    tailRank s' v w = rank ∧ Relinked s s' := by
  obtain ⟨hrank, rfl⟩ := Prod.mk.inj h
  exact ⟨hrank, (Relinked.single s v).find w⟩

section Readings

variable (h : Relinked s s') (hs : s.LinksEnd)

include h hs

theorem takeSnapshot_finds (k : Nat) (t : Ty) : Finds s (s'.takeSnapshot k t) (s.snapshot k t) := by
  rw [takeSnapshot, snapshot]
  rcases Resolving.resolve_reads hs k t s' {} h with ⟨hview, hrun⟩ | ⟨n, nm, s'', hview, hrun, h'⟩
  · rw [hview, hrun]; exact .nothing
  · rw [hview, hrun]; exact .found h'

theorem failWith_eq (k : Nat) (l r : Ty) (mismatch : NamedType → NamedType → Mismatch) :
    (s'.failWith k l r mismatch = .outOfFuel ∧
      (s.snapshot k l = none ∨ s.snapshot k r = none)) ∨
    ∃ shownL shownR s'', s.snapshot k l = some shownL ∧ s.snapshot k r = some shownR ∧
      s'.failWith k l r mismatch = .failed (mismatch shownL shownR) s'' ∧ Relinked s s'' := by
  rw [failWith]
  rcases takeSnapshot_finds h hs k l with ⟨hl, hread⟩ | ⟨shownL, s1, hl, hread, h1⟩
  · exact .inl ⟨by rw [hread], .inl hl⟩
  · simp only [hread]
    rcases takeSnapshot_finds h1 hs k r with ⟨hr, hread⟩ | ⟨shownR, s2, hr, hread, h2⟩
    · exact .inl ⟨by rw [hread], .inr hr⟩
    · exact .inr ⟨shownL, shownR, s2, hl, hr, by simp only [hread], h2⟩

theorem takePolytype_finds (k : Nat) (qs : List Var) (t : Ty) :
    Finds s (s'.takePolytype k qs t) (s.polytype k qs t) := by
  obtain ⟨s1, hall, h1⟩ := h.findAll_eq hs qs
  rw [takePolytype, hall, polytype]
  rcases Resolving.resolve_reads hs k t s1 { quantified := qs.map s.root } h1 with
    ⟨hview, hrun⟩ | ⟨n, nm, s'', hview, hrun, h'⟩
  · simp only [hview, hrun]; exact .nothing
  · simp only [hview, hrun]; exact .found h'

theorem gather_finds (k : Nat) (fields : List (String × Ty)) (ext : Option Var) :
    Finds s (s'.gather k fields ext) (s.row k fields ext) := by
  induction k generalizing fields ext s' with
  | zero => exact .nothing
  | succ k ih =>
    cases ext with
    | none => exact .found h
    | some v =>
      obtain ⟨s'', hfind, h'⟩ := h.find_eq hs v
      rw [gather, hfind, row]
      simp only [h'.content hs, hs.content_root, h'.aliases]
      cases s.content v with
      | unbound rank hint => exact .found h'
      | poisoned => exact .found h'
      | bound t =>
        dsimp only
        cases s.aliases.head k t with
        | none => exact .nothing
        | some hd =>
          cases hd with
          | stuck u =>
            exact (takeSnapshot_finds h' hs k u).map fun _ => (⟨fields, .spoiled⟩ : Row)
          | settled u =>
            cases u with
            | record more rest => exact ih h' (Assoc.union fields more) rest
            | _ => exact .found h'

theorem resolveBindings_finds (k : Nat) (schemes : List (String × Scheme)) :
    Finds s (resolveBindings k schemes s') (readBindings s k schemes) := by
  induction schemes generalizing s' with
  | nil => exact .found h
  | cons entry rest ih =>
    obtain ⟨name, scheme⟩ := entry
    rw [resolveBindings, readBindings]
    cases scheme.typeOf? name with
    | none =>
      have hrest := ih h
      cases hview : readBindings s k rest <;> rwa [hview] at hrest
    | some t =>
      dsimp only
      rcases takePolytype_finds h hs k scheme.quantifiers t with
        ⟨hview, hread⟩ | ⟨p, s1, hview, hread, h1⟩
      · rw [hview, hread]
        cases readBindings s k rest <;> exact .nothing
      · have hrest := (ih h1).map ((name, p) :: ·)
        rw [hread, hview]
        cases hview : readBindings s k rest <;> rwa [hview] at hrest

theorem resolveNodeTypes_eq (k : Nat) (nodeTypes : List (UInt32 × Ty)) :
    resolveNodeTypes k nodeTypes s' = readNodeTypes s k nodeTypes := by
  rw [resolveNodeTypes, readNodeTypes]
  have hread := Resolving.Reads.mapM (fun f : UInt32 × Ty =>
    (Resolving.resolve_reads hs k f.2).bind fun u => Resolving.Reads.pure (f.1, u)) nodeTypes
  rcases hread s' {} h with ⟨hview, hrun⟩ | ⟨n, nm, s'', hview, hrun, _⟩
  · rw [hview, hrun]; rfl
  · rw [hview, hrun]; rfl

end Readings

variable {k k' : Nat} {t : Ty} {fields : List (String × Ty)} {ext : Option Var}

theorem takeSnapshot_mono {x : NamedType × Store} (hk : k ≤ k')
    (h : s.takeSnapshot k t = some x) : s.takeSnapshot k' t = some x := by
  induction hk with
  | refl => exact h
  | step _ ih =>
    obtain ⟨y, hrun, rfl⟩ := Option.map_eq_some_iff.mp ih
    exact Option.map_eq_some_iff.mpr ⟨y, Resolving.resolve_succ _ t _ y hrun, rfl⟩

theorem exists_takeSnapshot (hs : s.LinksEnd) {n : NamedType}
    (h : EnoughFuel fun k => s.snapshot k t = some n) :
    ∃ s', EnoughFuel fun k => s.snapshot k t = some n ∧ s.takeSnapshot k t = some (n, s') := by
  obtain ⟨k, hk⟩ := h
  obtain ⟨s', hread, _⟩ := (takeSnapshot_finds .refl hs k t).exists_eq (hk k (Nat.le_refl k))
  exact ⟨s', k, fun k' hk' => ⟨hk k' hk', takeSnapshot_mono hk' hread⟩⟩

theorem gather_succ {x : Row × Store} (h : s.gather k fields ext = some x) :
    s.gather (k + 1) fields ext = some x := by
  induction k generalizing fields ext s with
  | zero => cases ext <;> cases h
  | succ k ih =>
    cases ext with
    | none => exact h
    | some v =>
      rw [gather] at h ⊢
      dsimp only at h ⊢
      cases hc : (s.find v).2.content (s.find v).1 with
      | unbound rank hint => simpa only [hc] using h
      | poisoned => simpa only [hc] using h
      | bound t =>
        simp only [hc] at h ⊢
        cases hd : (s.find v).2.aliases.head k t with
        | none => simp only [hd] at h; cases h
        | some hd' =>
          rw [AliasTable.head_succ hd]
          rw [hd] at h
          cases hd' with
          | stuck u =>
            obtain ⟨y, hrun, rfl⟩ := Option.map_eq_some_iff.mp h
            exact Option.map_eq_some_iff.mpr ⟨y, takeSnapshot_mono (Nat.le_succ k) hrun, rfl⟩
          | settled u =>
            cases u with
            | record more rest => exact ih h
            | _ => exact h

theorem gather_mono {x : Row × Store} (hk : k ≤ k') (h : s.gather k fields ext = some x) :
    s.gather k' fields ext = some x := by
  induction hk with
  | refl => exact h
  | step _ ih => exact gather_succ ih

end Store
end TypeSolver
