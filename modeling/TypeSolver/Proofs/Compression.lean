import TypeSolver.Proofs.Generated
import TypeSolver.Proofs.Lockstep
import TypeSolver.Proofs.Simulation

/-!
# TypeSolver.Proofs.Compression

Shortening links cannot be observed. Two stores agree when each variable has the same root, with the
same content, however many links lie between (`Agrees`). `find` gives a store that agrees with the
one it was given, whether it compresses or not, and all else that is done to a store reads and writes
roots only, so stores that agree go on to agree (`Agrees.lockstep`), through whole runs of the solver
(`Agreeing.simulation`) and through any sequence of requests (`Store.answers`).
-/

namespace TypeSolver
namespace Store

/-- The stores differ in how many links lead to a root, and in whether they compress. -/
structure Agrees (s t : Store) : Prop where
  size : s.size = t.size
  aliases : s.aliases = t.aliases
  root : s.root = t.root
  content : s.content = t.content
  linksEnd : s.LinksEnd
  linksEnd' : t.LinksEnd

namespace Agrees

variable {s s' t t' : Store}

theorem refl (h : s.LinksEnd) : Agrees s s := ⟨rfl, rfl, rfl, rfl, h, h⟩

theorem symm (h : Agrees s t) : Agrees t s :=
  ⟨h.size.symm, h.aliases.symm, h.root.symm, h.content.symm, h.linksEnd', h.linksEnd⟩

theorem trans (h : Agrees s t) (h' : Agrees t t') : Agrees s t' :=
  ⟨h.size.trans h'.size, h.aliases.trans h'.aliases, h.root.trans h'.root,
    h.content.trans h'.content, h.linksEnd, h'.linksEnd'⟩

theorem compress (h : Agrees s t) (b b' : Bool) :
    Agrees { s with compress := b } { t with compress := b' } :=
  ⟨h.size, h.aliases, h.root, h.content, h.linksEnd, h.linksEnd'⟩

end Agrees

/-! ## Writes -/

theorem Relinked.agrees {s s' : Store} (h : Relinked s s') (hs : s.LinksEnd) : Agrees s' s := by
  obtain ⟨he, hsize, hr, hc⟩ := h.view hs
  exact ⟨hsize, h.aliases, funext hr, funext hc, he, hs⟩

namespace Agrees

variable {s t : Store}

variable (h : Agrees s t)

include h

theorem relinked {s' t' : Store} (hs : Relinked s s') (ht : Relinked t t') : Agrees s' t' :=
  ((hs.agrees h.linksEnd).trans h).trans (ht.agrees h.linksEnd').symm

theorem put {r : Var} (hr : s.root r = r) (c : Content) : Agrees (s.put r c) (t.put r c) := by
  obtain ⟨he, hro, hc⟩ := h.linksEnd.put_view hr c
  obtain ⟨he', hro', hc'⟩ := h.linksEnd'.put_view (h.root ▸ hr) c
  refine ⟨by rw [put_size, put_size, h.size], h.aliases, ?_, ?_, he, he'⟩
  · funext v; rw [hro, hro', h.root]
  · funext v; rw [hc, hc', h.root, h.size, h.content]

theorem link {a b : Var} (ha : s.root a = a) (hb : s.root b = b) (hab : a ≠ b) :
    Agrees (s.link a b) (t.link a b) := by
  obtain ⟨he, hro, hc⟩ := h.linksEnd.link_view ha hb hab
  obtain ⟨he', hro', hc'⟩ := h.linksEnd'.link_view (h.root ▸ ha) (h.root ▸ hb) hab
  refine ⟨by rw [link_size, link_size, h.size], h.aliases, ?_, ?_, he, he'⟩
  · funext v; rw [hro, hro', h.root, h.size]
  · funext v; rw [hc, hc', h.root, h.size, h.content]

theorem fresh (rank : Rank) (hint : Option String) :
    Agrees (s.fresh rank hint).2 (t.fresh rank hint).2 := by
  obtain ⟨he, hro, hc⟩ := h.linksEnd.fresh_view rank hint
  obtain ⟨he', hro', hc'⟩ := h.linksEnd'.fresh_view rank hint
  refine ⟨by rw [fresh_size, fresh_size, h.size], h.aliases, ?_, ?_, he, he'⟩
  · funext v; rw [hro, hro', h.root]
  · funext v; rw [hc, hc', h.root, h.size, h.content]

theorem lowerRank (rank : Rank) (v : Var) : Agrees (lowerRank rank s v) (lowerRank rank t v) := by
  rw [Store.lowerRank, Store.lowerRank, ← h.content, ← h.root]
  split
  · split
    · exact h.put (h.linksEnd.root_root v) _
    · exact h
  · exact h

theorem lowerRanks (rank : Rank) (vs : List Var) :
    Agrees (s.lowerRanks vs rank) (t.lowerRanks vs rank) := by
  induction vs generalizing s t with
  | nil => exact h
  | cons v vs ih => exact ih (h.lowerRank rank v)

/-! ## Reads -/

theorem rank? : s.rank? = t.rank? := by
  funext v; rw [Store.rank?, Store.rank?, h.content]

theorem visit (fuel : Nat) : s.visit fuel = t.visit fuel := by
  induction fuel with
  | zero => rfl
  | succ fuel ih => funext seen v; rw [Store.visit, Store.visit, ih, h.root, h.content]

theorem reachFrom : s.reachFrom = t.reachFrom := by
  funext seen ty; rw [Store.reachFrom, Store.reachFrom, h.size, h.visit]

theorem reach : s.reach = t.reach := by
  funext ty; rw [Store.reach, Store.reach, h.reachFrom]

theorem readType (fuel : Nat) : s.readType fuel = t.readType fuel := by
  induction fuel with
  | zero => funext ty; rfl
  | succ fuel ih =>
    funext ty
    cases ty <;> simp only [Store.readType, ih, h.root, h.content, h.aliases]

theorem snapshot : s.snapshot = t.snapshot := by
  funext fuel ty; rw [Store.snapshot, Store.snapshot, h.readType]

theorem polytype : s.polytype = t.polytype := by
  funext fuel qs ty; rw [Store.polytype, Store.polytype, h.readType, h.root]

theorem generalizable : s.generalizable = t.generalizable := by
  have hinside : s.isInside = t.isInside := by
    funext outer r; rw [isInside, isInside, h.rank?]
  funext header outer
  rw [Store.generalizable, Store.generalizable, h.reachFrom, hinside]

end Agrees
end Store

/-! ## Unification -/

namespace Store.Agrees

variable {s t : Store}

theorem exists_find (h : Agrees s t) (v : Var) : ∃ r s1 t1, s.find v = (r, s1) ∧
    t.find v = (r, t1) ∧ Agrees s1 t1 ∧ Agrees s1 s ∧ s.root r = r := by
  obtain ⟨s1, hs, h1⟩ := Relinked.refl.find_eq h.linksEnd v
  obtain ⟨t1, ht, h1'⟩ := Relinked.refl.find_eq h.linksEnd' v
  rw [← h.root] at ht
  exact ⟨s.root v, s1, t1, hs, ht, h.relinked h1 h1', h1.agrees h.linksEnd, h.linksEnd.root_root v⟩

theorem exists_findAll (h : Agrees s t) (vs : List Var) : ∃ rs s1 t1, s.findAll vs = (rs, s1) ∧
    t.findAll vs = (rs, t1) ∧ Agrees s1 t1 := by
  obtain ⟨s1, hs, h1⟩ := Relinked.refl.findAll_eq h.linksEnd vs
  obtain ⟨t1, ht, h1'⟩ := Relinked.refl.findAll_eq h.linksEnd' vs
  rw [← h.root] at ht
  exact ⟨_, s1, t1, hs, ht, h.relinked h1 h1'⟩

theorem reads {α : Type} (h : Agrees s t) {view : Option α} {read read' : Option (α × Store)}
    (hread : Finds s read view) (hread' : Finds t read' view) :
    Option.Rel (fun x y => x.1 = y.1 ∧ x.2.Agrees y.2) read read' := by
  rcases hread with ⟨rfl, rfl⟩ | ⟨x, s', rfl, rfl, hs⟩
  · rcases hread' with ⟨_, rfl⟩ | ⟨_, _, hnone, _⟩
    · exact .none
    · cases hnone
  · obtain ⟨t', rfl, ht⟩ := hread'.exists_eq rfl
    exact .some ⟨rfl, h.relinked hs ht⟩

theorem lowerRanks_view (h : s.LinksEnd) (rank : Rank) (vs : List Var) :
    (s.lowerRanks vs rank).size = s.size ∧ (s.lowerRanks vs rank).root = s.root := by
  induction vs generalizing s with
  | nil => exact ⟨rfl, rfl⟩
  | cons v vs ih =>
    have hv : (Store.lowerRank rank s v).size = s.size ∧
        (Store.lowerRank rank s v).root = s.root := by
      rw [Store.lowerRank]
      split
      · split
        · exact ⟨put_size .., funext (h.put_view (h.root_root v) _).2.1⟩
        · exact ⟨rfl, rfl⟩
      · exact ⟨rfl, rfl⟩
    obtain ⟨hsize, hroot⟩ := ih ((refl h).lowerRank rank v).linksEnd
    exact ⟨hsize.trans hv.1, hroot.trans hv.2⟩

/-- Stores that agree are read and written alike. -/
theorem lockstep : Lockstep id (fun _ _ => True) (· = ·) Agrees where
  mono _ _ := trivial
  func _ := ⟨trivial, trivial⟩
  app _ _ _ := trivial
  record _ := ⟨fun _ _ => trivial, fun _ _ => trivial⟩
  rebuild _ _ _ := trivial
  injective _ _ _ h := h
  content h _ := ⟨by rw [Content.renamed_id, h.content]; rfl, fun _ _ => trivial⟩
  head n h _ := by simp [h.aliases]
  shown n h _ := by
    rw [Ty.renamed_id, id, ← h.snapshot]
    cases Store.snapshot .. with
    | none => exact .none
    | some n => exact .some rfl
  linksEnd h := ⟨h.linksEnd, h.linksEnd'⟩
  root h _ := ⟨by rw [h.root]; rfl, trivial⟩
  relinked h hs ht := h.relinked hs ht
  put h _ hr _ := by
    rw [Content.renamed_id]
    exact h.put hr _
  link h _ _ ha hb hab := by
    refine ⟨h.link ha hb hab, ?_⟩
    rw [(h.linksEnd.link_view ha hb hab).2.1, hb, if_neg fun hba => hab hba.1.symm]
  fresh rank h := ⟨h.fresh rank none, h.size, trivial⟩
  reach h _ _ := by rw [Ty.renamed_id, h.reach]; rfl
  lowerRanks rank h _ := by
    rw [Ty.renamed_id, ← h.reach]
    exact ⟨h.lowerRanks rank _, lowerRanks_view h.linksEnd rank _⟩

theorem run (fuel : Nat) (c : Call) (h : Agrees s t) :
    Outcome.Alike (· = ·) Agrees s.size (c.run fuel s) (c.run fuel t) := by
  have hrun := lockstep.run h fuel c (by cases c <;> simp [Call.All])
  rwa [Call.renamed_id] at hrun

end Store.Agrees

/-! ## Copies -/

namespace Copying

structure Agrees (c d : Copying) : Prop where
  store : c.store.Agrees d.store
  copies : c.copies = d.copies

/-- From copies that agree, the steps give the same result or none. -/
abbrev SameResult {α : Type} : StateT Copying Option α → StateT Copying Option α → Prop :=
  Tandem Agrees (· = ·)

theorem find_sameResult (v : Var) : SameResult (modifyGet (find v)) (modifyGet (find v)) := by
  intro c d h
  obtain ⟨r, s1, t1, hs, ht, h1, -, -⟩ := h.store.exists_find v
  show Option.Rel _ (some (find v c)) (some (find v d))
  rw [find, hs, find, ht]
  exact .some ⟨rfl, h1, h.copies⟩

theorem make_sameResult (r : Var) (rank : Rank) (hint : Option String) :
    SameResult (modifyGet (make r rank hint)) (modifyGet (make r rank hint)) := by
  intro c d h
  refine .some ⟨?_, h.store.fresh rank hint, ?_⟩
  · exact congrArg Ty.var h.store.size
  · show (r, c.store.size) :: c.copies = (r, d.store.size) :: d.copies
    rw [h.store.size, h.copies]

theorem mapM_sameResult {α β : Type} {f : α → StateT Copying Option β}
    (hf : ∀ x, SameResult (f x) (f x)) (xs : List α) : SameResult (xs.mapM f) (xs.mapM f) := by
  have hmap := Tandem.mapM (List.forall₂_same.mpr fun x (_ : x ∈ xs) => hf x)
  rwa [List.forall₂_eq_eq_eq] at hmap

theorem copy_sameResult (quantifiers : List Var) (rank : Rank) (fuel : Nat) (t : Ty) :
    SameResult (copy quantifiers rank fuel t) (copy quantifiers rank fuel t) := by
  induction fuel generalizing t with
  | zero => exact fun _ _ _ => .none
  | succ fuel ih =>
    cases t with
    | var v =>
      refine (find_sameResult v).bind ?_
      rintro r _ rfl c d h
      simp only [StateT.run_bind, StateT.run_get, Option.pure_def, Option.bind_eq_bind,
        Option.bind_some, ← h.store.content, ← h.copies]
      split
      · exact .some ⟨rfl, h⟩
      · split
        · exact ih _ c d h
        · split
          · exact make_sameResult _ rank _ c d h
          · exact .some ⟨rfl, h⟩
        · exact .some ⟨rfl, h⟩
    | func arg ret =>
      refine (ih arg).bind ?_
      rintro a _ rfl
      refine (ih ret).bind ?_
      rintro r _ rfl
      exact .pure rfl
    | app name args =>
      refine (mapM_sameResult ih args).bind ?_
      rintro ts _ rfl
      exact .pure rfl
    | record fields ext =>
      refine (mapM_sameResult (fun f => (ih f.2).bind ?_) fields).bind ?_
      · rintro u _ rfl
        exact .pure rfl
      · rintro fs _ rfl
        cases ext with
        | none => exact .pure rfl
        | some v =>
          refine (ih (.var v)).bind ?_
          rintro rest _ rfl
          exact .pure rfl

end Copying

variable {s t : Store}

theorem Store.Agrees.instantiate (h : s.Agrees t) (fuel : Nat) (quantifiers : List Var)
    (rank : Rank) (ty : Ty) :
    Option.Rel (fun x y => x.1 = y.1 ∧ x.2.Agrees y.2) (s.instantiate fuel quantifiers rank ty)
      (t.instantiate fuel quantifiers rank ty) := by
  rw [Store.instantiate, Store.instantiate]
  split
  · exact .some ⟨rfl, h⟩
  · obtain ⟨roots, s1, t1, hs, ht, h1⟩ := h.exists_findAll quantifiers
    have hcopy := Copying.copy_sameResult roots rank fuel ty { store := s1 } { store := t1 } ⟨h1, rfl⟩
    simp only [hs, ht]
    generalize (Copying.copy roots rank fuel ty).run { store := s1 } = x,
      (Copying.copy roots rank fuel ty).run { store := t1 } = y at hcopy
    cases hcopy with
    | none => exact .none
    | some h => exact .some ⟨h.1, h.2.store⟩

/-! ## The solver -/

namespace Solver

def Agreeing (st st' : Solver) : Prop := ∃ t, st.store.Agrees t ∧ st' = { st with store := t }

theorem Agreeing.equate {st st' : Solver} (h : Agreeing st st') (fuel : Nat) (expected actual : Ty)
    (span : Span) : Run.Alike Agreeing (st.equate fuel expected actual span)
      (st'.equate fuel expected actual span) := by
  obtain ⟨t, h, rfl⟩ := h
  have hrun : Outcome.Alike _ _ _ (Store.unify fuel expected actual st.store)
      (Store.unify fuel expected actual t) := h.run fuel (.types expected actual)
  simp only [Solver.equate]
  generalize Store.unify fuel expected actual st.store = o,
    Store.unify fuel expected actual t = o' at hrun
  cases hrun with
  | outOfFuel => exact .outOfFuel
  | @unified s t _ h => exact .done ⟨t, h, rfl⟩
  | @failed m m' s t hm _ h =>
    obtain rfl := hm.eq
    refine .done ?_
    change Agreeing (if st.isFull = true then _ else _) (if st.isFull = true then _ else _)
    split
    · exact ⟨t, h, rfl⟩
    · exact ⟨t, h, rfl⟩

theorem Agreeing.simulation (fuel : Nat) : Simulation fuel Agreeing where
  rank := by rintro st _ ⟨t, _, rfl⟩; rfl
  setRank := by rintro st _ rank ⟨t, h, rfl⟩; exact ⟨t, h, rfl⟩
  mark := by rintro st _ span ⟨t, h, rfl⟩; exact ⟨t, h, rfl⟩
  restore := by rintro st0 _ st _ ⟨_, _, rfl⟩ ⟨t, h, rfl⟩; exact ⟨t, h, rfl⟩
  generalize := by
    rintro st _ header outer ⟨t, h, rfl⟩
    obtain ⟨s1, hs, h1⟩ := Store.generalize_eq h.linksEnd header outer
    obtain ⟨t1, ht, h1'⟩ := Store.generalize_eq h.linksEnd' header outer
    rw [hs, ht, h.generalizable]
    exact ⟨rfl, t1, h.relinked h1 h1', rfl⟩
  bindTopLevel := by rintro st _ header scheme ⟨t, h, rfl⟩; exact ⟨t, h, rfl⟩
  equate expected actual span h := h.equate fuel expected actual span
  instantiate := by
    rintro st _ quantifiers ty ⟨t, h, rfl⟩
    have hinst := h.instantiate fuel quantifiers st.rank ty
    generalize st.store.instantiate fuel quantifiers st.rank ty = x,
      t.instantiate fuel quantifiers st.rank ty = y at hinst ⊢
    cases hinst with
    | none => exact .none
    | some h => exact .some ⟨h.1, _, h.2, rfl⟩

end Solver

/-! ## Requests -/

/-- What a store can be asked to do or to tell. -/
inductive Request where
  | fresh (rank : Rank) (hint : Option String)
  | unify (l r : Ty)
  | unifyVars (v w : Var)
  | find (v : Var)
  | content (v : Var)
  | rank (v : Var)
  | sameClass (v w : Var)
  | isPoisoned (v : Var)
  | snapshot (t : Ty)

inductive Answer where
  | var (v : Var)
  | unified
  | failed (m : Mismatch)
  | content (c : Content)
  | rank (r : Option Rank)
  | truth (b : Bool)
  | shown (t : NamedType)

def Outcome.answer : Outcome → Option (Answer × Store)
  | .unified s => some (.unified, s)
  | .failed m s => some (.failed m, s)
  | .outOfFuel => none

namespace Store

/-- Answer a request. What is told about a variable is read at its root, which has to be looked up.
`none` means out of fuel. -/
def answer (s : Store) (fuel : Nat) : Request → Option (Answer × Store)
  | .fresh rank hint => some (.var (s.fresh rank hint).1, (s.fresh rank hint).2)
  | .unify l r => (unify fuel l r s).answer
  | .unifyVars v w => (unifyVars fuel v w s).answer
  | .find v =>
    match s.find v with
    | (r, s) => some (.var r, s)
  | .content v =>
    match s.find v with
    | (r, s) => some (.content (s.content r), s)
  | .rank v =>
    match s.find v with
    | (r, s) => some (.rank (s.rank? r), s)
  | .sameClass v w =>
    match s.find v with
    | (r, s) =>
      match s.find w with
      | (r', s) => some (.truth (r == r'), s)
  | .isPoisoned v =>
    match s.find v with
    | (r, s) => some (.truth (s.isPoisoned r), s)
  | .snapshot t => (s.takeSnapshot fuel t).map fun (n, s) => (.shown n, s)

/-- The answers to requests in turn, where `compress` says for each whether paths are compressed
while it is answered. -/
def answers (fuel : Nat) : (compress : Nat → Bool) → List Request → Store → Option (List Answer)
  | _, [], _ => some []
  | compress, q :: qs, s =>
    match answer { s with compress := compress 0 } fuel q with
    | none => none
    | some (a, s) => (answers fuel (fun i => compress (i + 1)) qs s).map (a :: ·)

theorem Agrees.answer (h : s.Agrees t) (fuel : Nat) (q : Request) :
    Option.Rel (fun x y => x.1 = y.1 ∧ x.2.Agrees y.2) (s.answer fuel q) (t.answer fuel q) := by
  have houtcome : ∀ {o o' : Outcome}, o.Alike (· = ·) Agrees s.size o' →
      Option.Rel (fun x y => x.1 = y.1 ∧ x.2.Agrees y.2) o.answer o'.answer := by
    rintro _ _ (⟨_, h⟩ | ⟨hm, _, h⟩ | _)
    · exact .some ⟨rfl, h⟩
    · exact .some ⟨congrArg Answer.failed hm.eq, h⟩
    · exact .none
  cases q with
  | fresh rank hint => exact .some ⟨congrArg Answer.var h.size, h.fresh rank hint⟩
  | unify l r => exact houtcome (h.run fuel (.types l r))
  | unifyVars v w => exact houtcome (h.run fuel (.vars v w))
  | snapshot ty =>
    have hreads := Store.takeSnapshot_finds .refl h.linksEnd' fuel ty
    rw [← h.snapshot] at hreads
    have hboth := h.reads (Store.takeSnapshot_finds .refl h.linksEnd fuel ty) hreads
    simp only [Store.answer]
    generalize s.takeSnapshot fuel ty = x, t.takeSnapshot fuel ty = y at hboth
    cases hboth with
    | none => exact .none
    | some h => exact .some ⟨congrArg Answer.shown h.1, h.2⟩
  | sameClass v w =>
    obtain ⟨r, s1, t1, hs, ht, h1, -, -⟩ := h.exists_find v
    obtain ⟨r', s2, t2, hs', ht', h2, -, -⟩ := h1.exists_find w
    simp only [Store.answer, hs, ht, hs', ht']
    exact .some ⟨rfl, h2⟩
  | find v =>
    obtain ⟨r, s1, t1, hs, ht, h1, -, -⟩ := h.exists_find v
    simp only [Store.answer, hs, ht]
    exact .some ⟨rfl, h1⟩
  | content v =>
    obtain ⟨r, s1, t1, hs, ht, h1, -, -⟩ := h.exists_find v
    simp only [Store.answer, hs, ht]
    exact .some ⟨by rw [h1.content], h1⟩
  | rank v =>
    obtain ⟨r, s1, t1, hs, ht, h1, -, -⟩ := h.exists_find v
    simp only [Store.answer, hs, ht]
    exact .some ⟨by rw [h1.rank?], h1⟩
  | isPoisoned v =>
    obtain ⟨r, s1, t1, hs, ht, h1, -, -⟩ := h.exists_find v
    simp only [Store.answer, hs, ht, isPoisoned]
    exact .some ⟨by rw [h1.content], h1⟩

theorem Agrees.answers (h : s.Agrees t) (fuel : Nat) (compress compress' : Nat → Bool)
    (qs : List Request) : answers fuel compress qs s = answers fuel compress' qs t := by
  induction qs generalizing s t compress compress' with
  | nil => rfl
  | cons q qs ih =>
    have hfirst := (h.compress (compress 0) (compress' 0)).answer fuel q
    rw [Store.answers, Store.answers]
    generalize Store.answer { s with compress := compress 0 } fuel q = x,
      Store.answer { t with compress := compress' 0 } fuel q = y at hfirst
    cases hfirst with
    | none => rfl
    | @some x y h =>
      obtain ⟨a, s⟩ := x
      obtain ⟨rfl, h⟩ := h
      exact congrArg (Option.map _) (ih h _ _)

end Store

/-! ## Whole programs -/

theorem resolveBindings_agrees (h : s.Agrees t) (fuel : Nat) (schemes : List (String × Scheme)) :
    Option.Rel (fun x y => x.1 = y.1 ∧ x.2.Agrees y.2) (resolveBindings fuel schemes s)
      (resolveBindings fuel schemes t) := by
  have hviews : readBindings s fuel schemes = readBindings t fuel schemes := by
    induction schemes with
    | nil => rfl
    | cons e rest ih => rw [readBindings, readBindings, ih, h.polytype]
  have hreads := Store.resolveBindings_finds .refl h.linksEnd' fuel schemes
  rw [← hviews] at hreads
  exact h.reads (Store.resolveBindings_finds .refl h.linksEnd fuel schemes) hreads

theorem resolveNodeTypes_agrees (h : s.Agrees t) (fuel : Nat) (nodeTypes : List (UInt32 × Ty)) :
    resolveNodeTypes fuel nodeTypes s = resolveNodeTypes fuel nodeTypes t := by
  rw [Store.resolveNodeTypes_eq .refl h.linksEnd, Store.resolveNodeTypes_eq .refl h.linksEnd',
    readNodeTypes, readNodeTypes, h.readType]

theorem inferProgram_compress (fuel : Nat) (program : Program) (env : Environment)
    (maxErrors : Option Nat) : inferProgram fuel program env ⟨true, maxErrors⟩ =
      inferProgram fuel program env ⟨false, maxErrors⟩ := by
  rw [inferProgram, inferProgram]
  cases hp : Prepared.ofProgram program env with
  | error e => rfl
  | ok p =>
    obtain ⟨_, _, _, _, huntouched, _⟩ := ofProgram_makes (Admits.any env) (.inl trivial) hp
    have hstores := (Store.Agrees.refl huntouched.forest.linksEnd).compress true false
    have hstates : Solver.Agreeing (.ofStore { p.store with compress := true } maxErrors)
        (.ofStore { p.store with compress := false } maxErrors) := ⟨_, hstores, rfl⟩
    have hrun := (Solver.Agreeing.simulation fuel).solve p.context p.constraint hstates
    simp only [Prepared.solve]
    generalize Solver.solve fuel p.context p.constraint
      (.ofStore { p.store with compress := true } maxErrors) = r,
      Solver.solve fuel p.context p.constraint
        (.ofStore { p.store with compress := false } maxErrors) = r' at hrun ⊢
    cases hrun with
    | outOfFuel => rfl
    | fatal => rfl
    | @done _ st _ h =>
      obtain ⟨t, h, rfl⟩ := h
      have hbindings := resolveBindings_agrees h fuel st.topLevel
      dsimp only
      generalize resolveBindings fuel st.topLevel st.store = x,
        resolveBindings fuel st.topLevel t = y at hbindings
      cases hbindings with
      | none => rfl
      | some h => simp only [h.1, resolveNodeTypes_agrees h.2]

theorem Prepared.linksEnd_of_solve {fuel : Nat} {program : Program} {env : Environment}
    {config : Config} {p : Prepared} {st : Solver} (hp : Prepared.ofProgram program env = .ok p)
    (h : p.solve fuel config = .done () st) : st.store.LinksEnd := by
  obtain ⟨_, _, _, _, huntouched, _⟩ := ofProgram_makes (Admits.any env) (.inl trivial) hp
  let start := Solver.ofStore { p.store with compress := config.pathCompression } config.maxErrors
  have hstart : Solver.Agreeing start start :=
    ⟨_, (Store.Agrees.refl huntouched.forest.linksEnd).compress _ _, rfl⟩
  have hrun := (Solver.Agreeing.simulation fuel).solve p.context p.constraint hstart
  rw [show Solver.solve fuel p.context p.constraint start = .done () st from h] at hrun
  cases hrun with
  | done h => obtain ⟨t, h, _⟩ := h; exact h.linksEnd

theorem inferProgram_eq_ok {fuel : Nat} {program : Program} {env : Environment} {config : Config}
    {typed : TypedProgram} (h : inferProgram fuel program env config = some (.ok typed)) :
    ∃ p st, Prepared.ofProgram program env = .ok p ∧ p.solve fuel config = .done () st ∧
      st.errors = [] ∧ readBindings st.store fuel st.topLevel = some typed.bindings ∧
      readNodeTypes st.store fuel p.nodeTypes = some typed.nodeTypes := by
  obtain ⟨p, st, s, hp, hsolve, herr, hbindings, hnodes⟩ := inferProgram_resolves h
  have hs := p.linksEnd_of_solve hp hsolve
  obtain ⟨hviews, hs'⟩ := (Store.resolveBindings_finds .refl hs fuel st.topLevel).view_eq hbindings
  rw [Store.resolveNodeTypes_eq hs' hs] at hnodes
  exact ⟨p, st, hp, hsolve, herr, hviews, hnodes⟩

/-- Path compression is not observed. A program gets the same types or the same errors with and
without it, and a store gives the same answers to any requests, also when compression is switched on
and off in between. -/
theorem compression_unobserved (fuel : Nat) :
    (∀ (program : Program) (env : Environment) (maxErrors : Option Nat),
      inferProgram fuel program env ⟨true, maxErrors⟩ =
        inferProgram fuel program env ⟨false, maxErrors⟩) ∧
    ∀ (table : AliasTable) (requests : List Request) (compress compress' : Nat → Bool),
      Store.answers fuel compress requests { aliases := table } =
        Store.answers fuel compress' requests { aliases := table } := by
  refine ⟨inferProgram_compress fuel, fun table requests compress compress' => ?_⟩
  exact (Store.Agrees.refl (Store.forest_empty table true).linksEnd).answers fuel compress compress'
    requests

end TypeSolver
