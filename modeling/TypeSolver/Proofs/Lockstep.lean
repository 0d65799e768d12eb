import TypeSolver.Proofs.Renaming
import TypeSolver.Proofs.Runs

/-!
# TypeSolver.Proofs.Lockstep

One unification in two stores, under other names. A `Lockstep` says of a relation between stores that
each single read gives the same in both, up to the names, and that each single write keeps the stores
related. Then a call in the one store and the renamed call in the other take the same steps with the
same fuel, end in the same way and leave related stores (`Lockstep.run`).

What is asked of reads and writes is asked where they happen: of types with a property that passes
from a type to its parts, to what its variables stand for and to the expansion of its head.
-/

namespace TypeSolver

/-! ## Renamed types -/

namespace Ty

variable {ρ : Var → Var}

theorem renamed_eq_self {t : Ty} (h : ∀ v ∈ t.vars, ρ v = v) : t.renamed ρ = t := by
  induction t with
  | var v => rw [renamed, h v (by simp)]
  | func arg ret iha ihr =>
    rw [renamed, iha fun v hv => h v (by simp [hv]), ihr fun v hv => h v (by simp [hv])]
  | app name args ih =>
    have hargs : args.map (renamed ρ) = args.map id := List.map_congr_left fun a ha =>
      ih a ha fun v hv => h v (mem_vars_app.mpr ⟨a, ha, hv⟩)
    rw [renamed_app, hargs, List.map_id]
  | record fields ext ih =>
    have hfields : Assoc.mapValues (renamed ρ) fields = fields.map id :=
      List.map_congr_left fun f hf =>
        Prod.ext rfl (ih f hf fun v hv => h v (mem_vars_record.mpr (.inl ⟨f, hf, hv⟩)))
    have hext : ext.map ρ = ext := by
      cases ext with
      | none => rfl
      | some v => rw [Option.map_some, h v (mem_vars_record.mpr (.inr rfl))]
    rw [renamed_record, hfields, List.map_id, hext]

@[simp] theorem renamed_id : renamed id = id := funext fun _ => renamed_eq_self fun _ _ => rfl

end Ty

def Content.renamed (ρ : Var → Var) : Content → Content
  | .unbound rank hint => .unbound rank hint
  | .bound t => .bound (t.renamed ρ)
  | .poisoned => .poisoned

theorem Content.renamed_eq_self {ρ : Var → Var} {c : Content}
    (h : ∀ t, c = .bound t → ∀ v ∈ t.vars, ρ v = v) : c.renamed ρ = c := by
  cases c with
  | unbound rank hint => rfl
  | poisoned => rfl
  | bound t => rw [renamed, Ty.renamed_eq_self (h t rfl)]

@[simp] theorem Content.renamed_id (c : Content) : c.renamed id = c :=
  renamed_eq_self fun _ _ _ _ => rfl

namespace Assoc

variable {α β : Type} (f : α → β) (m m' : List (String × α))

theorem without_mapValues :
    without (mapValues f m) (mapValues f m') = mapValues f (without m m') := by
  simp only [without, mapValues, List.filter_map]
  congr 2
  funext e
  simp only [Function.comp_apply, contains]
  rw [← mapValues, get?_mapValues, Option.isSome_map]

theorem shared_mapValues :
    shared (mapValues f m) (mapValues f m') = (shared m m').map (Prod.map f f) := by
  simp only [shared, mapValues, List.filterMap_map, List.map_filterMap]
  congr 1
  funext e
  simp only [Function.comp_apply]
  rw [← mapValues, get?_mapValues]
  cases get? m' e.1 <;> rfl

end Assoc

namespace AliasTable.Head

def renamed (ρ : Var → Var) : Head → Head
  | .settled t => .settled (t.renamed ρ)
  | .stuck t => .stuck (t.renamed ρ)

@[simp] theorem renamed_id : renamed id = id := by
  funext hd
  cases hd <;> simp [renamed]

def type : Head → Ty
  | .settled t => t
  | .stuck t => t

end AliasTable.Head

def Tail.renamed (ρ : Var → Var) : Tail → Tail
  | .closed => .closed
  | .opened v => .opened (ρ v)
  | .spoiled => .spoiled

def Row.renamed (ρ : Var → Var) (row : Row) : Row :=
  ⟨Assoc.mapValues (Ty.renamed ρ) row.fields, row.tail.renamed ρ⟩

namespace Store.Call

def renamed (ρ : Var → Var) : Call → Call
  | .types l r => .types (l.renamed ρ) (r.renamed ρ)
  | .vars v w => .vars (ρ v) (ρ w)
  | .var side v u => .var side (ρ v) (u.renamed ρ)
  | .terms l r => .terms (l.renamed ρ) (r.renamed ρ)
  | .rows rowL rowR l r => .rows (rowL.renamed ρ) (rowR.renamed ρ) (l.renamed ρ) (r.renamed ρ)
  | .tails v w rank onlyLeft onlyRight =>
    .tails (ρ v) (ρ w) rank (Assoc.mapValues (Ty.renamed ρ) onlyLeft)
      (Assoc.mapValues (Ty.renamed ρ) onlyRight)

@[simp] theorem renamed_id (c : Call) : c.renamed id = c := by
  have hrow : ∀ row : Row, row.renamed id = row := by
    rintro ⟨fields, tail⟩
    cases tail <;> simp [Row.renamed, Tail.renamed, Assoc.mapValues]
  cases c <;> simp [renamed, Assoc.mapValues, hrow]

def All (A : Ty → Prop) : Call → Prop
  | .types l r => A l ∧ A r
  | .vars v w => A (.var v) ∧ A (.var w)
  | .var _ v u => A (.var v) ∧ A u
  | .terms l r => A l ∧ A r
  | .rows rowL rowR l r => A (rowType rowL) ∧ A (rowType rowR) ∧ A l ∧ A r
  | .tails v w _ onlyLeft onlyRight =>
    A (.var v) ∧ A (.var w) ∧ A (.record onlyLeft none) ∧ A (.record onlyRight none)

end Store.Call

/-! ## Steps -/

/-- From related states both steps fail, or both give related results and leave related states. -/
def Tandem {σ τ α β : Type} (S : σ → τ → Prop) (Q : α → β → Prop) (m : StateT σ Option α)
    (m' : StateT τ Option β) : Prop :=
  ∀ st st', S st st' → Option.Rel (fun x y => Q x.1 y.1 ∧ S x.2 y.2) (m.run st) (m'.run st')

namespace Tandem

variable {σ τ α β α' β' : Type} {S : σ → τ → Prop} {Q : α → β → Prop} {Q' : α' → β' → Prop}

theorem pure {a : α} {b : β} (h : Q a b) : Tandem S Q (pure a) (pure b) := fun _ _ hst => .some ⟨h, hst⟩

theorem bind {m : StateT σ Option α} {m' : StateT τ Option β} {f : α → StateT σ Option α'}
    {f' : β → StateT τ Option β'} (hm : Tandem S Q m m')
    (hf : ∀ a b, Q a b → Tandem S Q' (f a) (f' b)) : Tandem S Q' (m >>= f) (m' >>= f') := by
  intro st st' hst
  have hfirst := hm st st' hst
  rw [StateT.run_bind, StateT.run_bind]
  generalize m.run st = x, m'.run st' = y at hfirst
  cases hfirst with
  | none => exact .none
  | @some x y h => exact hf x.1 y.1 h.1 x.2 y.2 h.2

theorem mapM {f : α' → StateT σ Option α} {f' : β' → StateT τ Option β} {xs : List α'}
    {ys : List β'} (h : List.Forall₂ (fun x y => Tandem S Q (f x) (f' y)) xs ys) :
    Tandem S (List.Forall₂ Q) (xs.mapM f) (ys.mapM f') := by
  induction h with
  | nil => exact pure .nil
  | cons hx _ ih =>
    rw [List.mapM_cons, List.mapM_cons]
    exact bind hx fun _ _ hxy => bind ih fun _ _ hxys => pure (.cons hxy hxys)

end Tandem

/-! ## Outcomes -/

/-- The mismatches are of one kind and show types that are related by `N`. -/
inductive Mismatch.Alike (N : NamedType → NamedType → Prop) : Mismatch → Mismatch → Prop where
  | shape {l l' r r' : NamedType} : N l l' → N r r' → Alike N (.shape l r) (.shape l' r')
  | occurs {v v' t t' : NamedType} : N v v' → N t t' → Alike N (.occurs v t) (.occurs v' t')
  | fields {missing extra : List String} {l l' r r' : NamedType} : N l l' → N r r' →
      Alike N (.fields missing extra l r) (.fields missing extra l' r')

theorem Mismatch.Alike.eq {m m' : Mismatch} (h : m.Alike (· = ·) m') : m = m' := by
  cases h <;> subst_vars <;> rfl

/-- The outcomes are of one kind, in stores that are related by `R`. The first store has at least `n`
variables. -/
inductive Outcome.Alike (N : NamedType → NamedType → Prop) (R : Store → Store → Prop) (n : Nat) :
    Outcome → Outcome → Prop where
  | unified {s t : Store} : n ≤ s.size → R s t → Alike N R n (.unified s) (.unified t)
  | failed {m m' : Mismatch} {s t : Store} : m.Alike N m' → n ≤ s.size → R s t →
      Alike N R n (.failed m s) (.failed m' t)
  | outOfFuel : Alike N R n .outOfFuel .outOfFuel

namespace Outcome.Alike

variable {N : NamedType → NamedType → Prop} {R : Store → Store → Prop} {n n' : Nat} {o o' : Outcome}

theorem mono (h : Alike N R n' o o') (hn : n ≤ n') : Alike N R n o o' := by
  cases h with
  | unified hs h => exact .unified (hn.trans hs) h
  | failed hm hs h => exact .failed hm (hn.trans hs) h
  | outOfFuel => exact .outOfFuel

theorem andThen {f f' : Store → Outcome} (h : Alike N R n o o')
    (hf : ∀ s t, n ≤ s.size → R s t → Alike N R s.size (f s) (f' t)) :
    Alike N R n (o.andThen f) (o'.andThen f') := by
  cases h with
  | unified hs h => exact (hf _ _ hs h).mono hs
  | failed hm hs h => exact .failed hm hs h
  | outOfFuel => exact .outOfFuel

theorem onFailure {f f' : Store → Store} (h : Alike N R n o o')
    (hf : ∀ s t, n ≤ s.size → R s t → n ≤ (f s).size ∧ R (f s) (f' t)) :
    Alike N R n (o.onFailure f) (o'.onFailure f') := by
  cases h with
  | unified hs h => exact .unified hs h
  | failed hm hs h => exact .failed hm (hf _ _ hs h).1 (hf _ _ hs h).2
  | outOfFuel => exact .outOfFuel

end Outcome.Alike

/-! ## Stores in step -/

namespace Store

/-- Stores that are related by `R` are read and written alike. `A s` holds of the types that are
looked at in the store `s`; variables have the name that `ρ` gives them in the other store, and types
are shown as `N` says. -/
structure Lockstep (ρ : Var → Var) (A : Store → Ty → Prop) (N : NamedType → NamedType → Prop)
    (R : Store → Store → Prop) : Prop where
  mono {s s' : Store} {u : Ty} : s.size ≤ s'.size → A s u → A s' u
  func {s : Store} {a b : Ty} : A s (.func a b) → A s a ∧ A s b
  app {s : Store} {name : String} {args : List Ty} : A s (.app name args) → ∀ a ∈ args, A s a
  record {s : Store} {fields : List (String × Ty)} {ext : Option Var} : A s (.record fields ext) →
    (∀ f ∈ fields, A s f.2) ∧ ∀ v, ext = some v → A s (.var v)
  rebuild {s : Store} {fields fields' : List (String × Ty)} {ext ext' : Option Var} :
    A s (.record fields ext) → (∀ f ∈ fields', A s f.2) → (∀ v, ext' = some v → A s (.var v)) →
      A s (.record fields' ext')
  injective {s t : Store} {v w : Var} : R s t → A s (.var v) → A s (.var w) → ρ v = ρ w → v = w
  content {s t : Store} {v : Var} : R s t → A s (.var v) →
    t.content (ρ v) = (s.content v).renamed ρ ∧ ∀ u, s.content v = .bound u → A s u
  head {s t : Store} {u : Ty} (n : Nat) : R s t → A s u →
    t.aliases.head n (u.renamed ρ) = (s.aliases.head n u).map (.renamed ρ) ∧
      ∀ hd, s.aliases.head n u = some hd → A s hd.type
  shown {s t : Store} {u : Ty} (n : Nat) : R s t → A s u →
    Option.Rel N (s.snapshot n u) (t.snapshot n (u.renamed ρ))
  linksEnd {s t : Store} : R s t → s.LinksEnd ∧ t.LinksEnd
  root {s t : Store} {v : Var} : R s t → A s (.var v) →
    t.root (ρ v) = ρ (s.root v) ∧ A s (.var (s.root v))
  relinked {s s' t t' : Store} : R s t → Relinked s s' → Relinked t t' → R s' t'
  put {s t : Store} {r : Var} {c : Content} : R s t → A s (.var r) → s.root r = r →
    (∀ u, c = .bound u → A s u) → R (s.put r c) (t.put (ρ r) (c.renamed ρ))
  link {s t : Store} {a b : Var} : R s t → A s (.var a) → A s (.var b) → s.root a = a →
    s.root b = b → a ≠ b → R (s.link a b) (t.link (ρ a) (ρ b)) ∧ (s.link a b).root b = b
  fresh {s t : Store} (rank : Rank) : R s t → R (s.fresh rank none).2 (t.fresh rank none).2 ∧
    ρ s.size = t.size ∧ A (s.fresh rank none).2 (.var s.size)
  reach {s t : Store} {u : Ty} {r : Var} : R s t → A s u → A s (.var r) →
    (ρ r ∈ t.reach (u.renamed ρ) ↔ r ∈ s.reach u)
  lowerRanks {s t : Store} {u : Ty} (rank : Rank) : R s t → A s u →
    R (s.lowerRanks (s.reach u) rank) (t.lowerRanks (t.reach (u.renamed ρ)) rank) ∧
      (s.lowerRanks (s.reach u) rank).size = s.size ∧
      (s.lowerRanks (s.reach u) rank).root = s.root

namespace Lockstep

variable {ρ : Var → Var} {A : Store → Ty → Prop} {N : NamedType → NamedType → Prop}
  {R : Store → Store → Prop} (L : Lockstep ρ A N R) {s t : Store} {v w : Var} {l r u : Ty}
  {fields : List (String × Ty)} {ext : Option Var} {fuel : Nat}

include L

theorem ext_of_record (hu : A s (.record fields ext)) (hv : ext = some v) : A s (.var v) :=
  (L.record hu).2 v hv

theorem tail_of_row {row : Row} (hrow : A s (rowType row)) (hv : row.tail = .opened v) :
    A s (.var v) :=
  L.ext_of_record hrow (by rw [hv])

theorem record_of_fields (hu : A s (.record fields ext)) : A s (.record fields none) :=
  L.rebuild hu (L.record hu).1 (by rintro _ ⟨⟩)

theorem eq_iff (h : R s t) (hv : A s (.var v)) (hw : A s (.var w)) : ρ v = ρ w ↔ v = w :=
  ⟨L.injective h hv hw, congrArg ρ⟩

theorem rank? (h : R s t) (hv : A s (.var v)) : t.rank? (ρ v) = s.rank? v := by
  rw [Store.rank?, Store.rank?, (L.content h hv).1]
  cases s.content v <;> rfl

theorem find (h : R s t) (hv : A s (.var v)) : ∃ r s1 t1, s.find v = (r, s1) ∧
    t.find (ρ v) = (ρ r, t1) ∧ R s1 t1 ∧ s1.size = s.size ∧ s1.root = s.root ∧ A s (.var r) ∧
      s.root r = r := by
  obtain ⟨hs, ht⟩ := L.linksEnd h
  obtain ⟨hroot, hr⟩ := L.root h hv
  obtain ⟨s1, hfind, h1⟩ := Relinked.refl.find_eq hs v
  obtain ⟨t1, hfind', h1'⟩ := Relinked.refl.find_eq ht (ρ v)
  rw [hroot] at hfind'
  exact ⟨s.root v, s1, t1, hfind, hfind', L.relinked h h1 h1', h1.size hs, funext (h1.root hs), hr,
    hs.root_root v⟩

theorem poison (h : R s t) (hv : A s (.var v)) :
    R (s.poison v) (t.poison (ρ v)) ∧ (s.poison v).size = s.size := by
  obtain ⟨r, s1, t1, hs, ht, h1, hsize, hroot, hr, hrr⟩ := L.find h hv
  rw [Store.poison, Store.poison, hs, ht]
  refine ⟨L.put h1 (L.mono hsize.ge hr) (hroot ▸ hrr) (c := .poisoned) (by rintro _ ⟨⟩), ?_⟩
  rw [put_size, hsize]

theorem row (h : R s t) (fuel : Nat) (hu : A s (.record fields ext)) :
    t.row fuel (Assoc.mapValues (Ty.renamed ρ) fields) (ext.map ρ) =
        (s.row fuel fields ext).map (Row.renamed ρ) ∧
      ∀ row, s.row fuel fields ext = some row → A s (rowType row) := by
  induction fuel generalizing fields ext with
  | zero => cases ext <;> exact ⟨rfl, by rintro _ ⟨⟩⟩
  | succ fuel ih =>
    have hspoiled : A s (rowType ⟨fields, .spoiled⟩) := L.record_of_fields hu
    cases ext with
    | none => exact ⟨rfl, by rintro _ ⟨⟩; exact hu⟩
    | some v =>
      have hv := L.ext_of_record hu rfl
      obtain ⟨hroot, hr⟩ := L.root h hv
      obtain ⟨hcontent, hbound⟩ := L.content h hv
      rw [Option.map_some, Store.row, Store.row, hcontent, hroot]
      cases hc : s.content v with
      | poisoned => exact ⟨rfl, by rintro _ ⟨⟩; exact hspoiled⟩
      | unbound rank hint =>
        refine ⟨rfl, ?_⟩
        rintro _ ⟨⟩
        exact L.rebuild hu (L.record hu).1 (by rintro _ ⟨⟩; exact hr)
      | bound u =>
        obtain ⟨hhead, htype⟩ := L.head fuel h (hbound u hc)
        simp only [Content.renamed, hhead]
        cases hd : s.aliases.head fuel u with
        | none => exact ⟨rfl, by rintro _ ⟨⟩⟩
        | some hd' =>
          have hmore := htype _ hd
          cases hd' with
          | stuck u' =>
            have hshown := L.shown fuel h hmore
            simp only [Option.map_some, AliasTable.Head.renamed, AliasTable.Head.type] at hshown ⊢
            generalize s.snapshot fuel u' = x, t.snapshot fuel (u'.renamed ρ) = y at hshown
            cases hshown with
            | none => exact ⟨rfl, by rintro _ ⟨⟩⟩
            | some _ => exact ⟨rfl, by rintro _ ⟨⟩; exact hspoiled⟩
          | settled u' =>
            cases u' with
            | record more rest =>
              simp only [Option.map_some, AliasTable.Head.renamed, Ty.renamed_record,
                ← Assoc.mapValues_union]
              refine ih (L.rebuild hu (fun f hf => ?_) (L.record hmore).2)
              exact (Assoc.mem_of_mem_union hf).elim ((L.record hu).1 f) ((L.record hmore).1 f)
            | _ => exact ⟨rfl, by rintro _ ⟨⟩; exact hspoiled⟩

theorem gather (h : R s t) (fuel : Nat) (hu : A s (.record fields ext)) :
    Option.Rel (fun x y => y.1 = x.1.renamed ρ ∧ A s (rowType x.1) ∧ R x.2 y.2 ∧ x.2.size = s.size)
      (s.gather fuel fields ext)
      (t.gather fuel (Assoc.mapValues (Ty.renamed ρ) fields) (ext.map ρ)) := by
  obtain ⟨hs, ht⟩ := L.linksEnd h
  obtain ⟨hrow, htype⟩ := L.row h fuel hu
  have hread' := gather_finds .refl ht fuel (Assoc.mapValues (Ty.renamed ρ) fields) (ext.map ρ)
  rcases gather_finds .refl hs fuel fields ext with ⟨hview, hread⟩ | ⟨row, s', hview, hread, h'⟩ <;>
  rw [hrow, hview] at hread' <;> rw [hread]
  · rcases hread' with ⟨_, hread'⟩ | ⟨_, _, hnone, _⟩
    · rw [hread']; exact .none
    · cases hnone
  · obtain ⟨t', hread', h''⟩ := hread'.exists_eq rfl
    rw [hread']
    exact .some ⟨rfl, htype row hview, L.relinked h h' h'', h'.size hs⟩

/-! ## Failures -/

theorem failWith (fuel : Nat) (h : R s t) (hl : A s l) (hr : A s r)
    {mismatch mismatch' : NamedType → NamedType → Mismatch}
    (hm : ∀ a b a' b', N a a' → N b b' → (mismatch a b).Alike N (mismatch' a' b')) :
    Outcome.Alike N R s.size (s.failWith fuel l r mismatch)
      (t.failWith fuel (l.renamed ρ) (r.renamed ρ) mismatch') := by
  obtain ⟨hs, ht⟩ := L.linksEnd h
  have hshownL := L.shown fuel h hl
  have hshownR := L.shown fuel h hr
  rcases failWith_eq .refl hs fuel l r mismatch with
    ⟨hfuel, hnone⟩ | ⟨a, b, s', ha, hb, hfail, h'⟩ <;>
  rcases failWith_eq .refl ht fuel (l.renamed ρ) (r.renamed ρ) mismatch' with
    ⟨hfuel', hnone'⟩ | ⟨a', b', t', ha', hb', hfail', h''⟩
  · rw [hfuel, hfuel']
    exact .outOfFuel
  · rw [ha'] at hshownL
    rw [hb'] at hshownR
    rcases hnone with hnone | hnone
    · rw [hnone] at hshownL; cases hshownL
    · rw [hnone] at hshownR; cases hshownR
  · rw [ha] at hshownL
    rw [hb] at hshownR
    rcases hnone' with hnone | hnone
    · rw [hnone] at hshownL; cases hshownL
    · rw [hnone] at hshownR; cases hshownR
  · rw [ha, ha'] at hshownL
    rw [hb, hb'] at hshownR
    cases hshownL with | some hN =>
    cases hshownR with | some hN' =>
    rw [hfail, hfail']
    exact .failed (hm _ _ _ _ hN hN') (h'.size hs).ge (L.relinked h h' h'')

theorem shapeMismatch (fuel : Nat) (h : R s t) (hl : A s l) (hr : A s r) :
    Outcome.Alike N R s.size (s.shapeMismatch fuel l r)
      (t.shapeMismatch fuel (l.renamed ρ) (r.renamed ρ)) :=
  L.failWith fuel h hl hr fun _ _ _ _ => .shape

theorem fieldsMismatch (h : R s t) (left right : List (String × Ty)) (hl : A s l) (hr : A s r) :
    Outcome.Alike N R s.size (s.fieldsMismatch fuel left right l r)
      (t.fieldsMismatch fuel (Assoc.mapValues (Ty.renamed ρ) left)
        (Assoc.mapValues (Ty.renamed ρ) right) (l.renamed ρ) (r.renamed ρ)) := by
  refine L.failWith fuel h hl hr fun _ _ _ _ ha hb => ?_
  rw [Assoc.keys_mapValues, Assoc.keys_mapValues]
  exact .fields ha hb

/-! ## Calls -/

theorem adopt (h : R s t) (hv : A s (.var v)) (rank : Rank) (hu : A s u)
    {become become' : Store → Store}
    (hbecome : ∀ s' t', R s' t' → s'.size = s.size → s'.root = s.root →
      (become s').size = s'.size ∧ R (become s') (become' t')) :
    Outcome.Alike N R s.size (s.adopt fuel v rank u become)
      (t.adopt fuel (ρ v) rank (u.renamed ρ) become') := by
  obtain ⟨hs, ht⟩ := L.linksEnd h
  obtain ⟨s1, hocc, h1⟩ := occurs_eq hs v u
  obtain ⟨t1, hocc', h1'⟩ := occurs_eq ht (ρ v) (u.renamed ρ)
  have hR := L.relinked h h1 h1'
  have hsize := h1.size hs
  have hv1 := L.mono hsize.ge hv
  have hu1 := L.mono hsize.ge hu
  rw [Store.adopt, Store.adopt, hocc, hocc', decide_eq_decide.mpr (L.reach h hu hv), ← hsize]
  cases decide (v ∈ s.reach u) with
  | true =>
    refine (L.failWith fuel hR hv1 hu1 fun _ _ _ _ => .occurs).onFailure fun s2 t2 hle h2 => ?_
    obtain ⟨hpoison, hsize⟩ := L.poison h2 (L.mono hle hv1)
    exact ⟨hle.trans hsize.ge, hpoison⟩
  | false =>
    obtain ⟨s2, hadjust, h2⟩ := adjustRanks_eq (h1.linksEnd hs) u rank
    obtain ⟨t2, hadjust', h2'⟩ := adjustRanks_eq (h1'.linksEnd ht) (u.renamed ρ) rank
    have hsize2 := h2.size (h1.linksEnd hs)
    obtain ⟨hlow, hsize', hroot⟩ := L.lowerRanks rank (L.relinked hR h2 h2') (L.mono hsize2.ge hu1)
    rw [h2.reach (h1.linksEnd hs), ← hadjust] at hlow hsize' hroot
    rw [h2'.reach (h1'.linksEnd ht), ← hadjust'] at hlow
    have hroot' : (s1.adjustRanks u rank).root = s.root := by
      rw [hroot]
      exact funext fun x => (h2.root (h1.linksEnd hs) x).trans (h1.root hs x)
    obtain ⟨hsize'', hnew⟩ := hbecome _ _ hlow ((hsize'.trans hsize2).trans hsize) hroot'
    exact .unified (hsize''.trans (hsize'.trans hsize2)).ge hnew

def Follows (ρ : Var → Var) (A : Store → Ty → Prop) (N : NamedType → NamedType → Prop)
    (R : Store → Store → Prop) (f : Ty → Ty → Store → Outcome) : Prop :=
  ∀ ⦃l r s t⦄, R s t → A s l → A s r →
    Outcome.Alike N R s.size (f l r s) (f (l.renamed ρ) (r.renamed ρ) t)

/-- Two classes become one in the same way. -/
theorem unifyVars (h : R s t) (hterms : Follows ρ A N R (unifyTerms fuel)) (hv : A s (.var v))
    (hw : A s (.var w)) : Outcome.Alike N R s.size (unifyVars (fuel + 1) v w s)
      (unifyVars (fuel + 1) (ρ v) (ρ w) t) := by
  obtain ⟨a, s1, t1, hs, ht, h1, hsize1, hroot1, ha, hra⟩ := L.find h hv
  obtain ⟨b, s2, t2, hs', ht', h2, hsize2, hroot2, hb, hrb⟩ := L.find h1 (L.mono hsize1.ge hw)
  rw [← hroot1, ← hroot2] at hra
  rw [← hroot2] at hrb
  have hsize := hsize2.trans hsize1
  rw [← hsize]
  replace ha := L.mono hsize.ge ha
  replace hb := L.mono hsize2.ge hb
  obtain ⟨hca, hboundA⟩ := L.content h2 ha
  obtain ⟨hcb, hboundB⟩ := L.content h2 hb
  rw [Store.unifyVars, Store.unifyVars]
  simp only [hs, ht, hs', ht', L.eq_iff h2 ha hb, hca, hcb]
  by_cases hab : a = b
  · rw [if_pos hab, if_pos hab]
    exact .unified le_rfl h2
  rw [if_neg hab, if_neg hab]
  obtain ⟨hlink, hstays⟩ := L.link h2 ha hb hra hrb hab
  have hlink' := (L.link h2 hb ha hrb hra (Ne.symm hab)).1
  have hadopt : ∀ {x y : Var} {u : Ty} (rank : Rank), A s2 (.var x) → A s2 (.var y) →
      s2.root x = x → s2.root y = y → x ≠ y → A s2 u →
      Outcome.Alike N R s2.size (s2.adopt fuel x rank u fun s => s.link x y)
        (t2.adopt fuel (ρ x) rank (u.renamed ρ) fun s => s.link (ρ x) (ρ y)) := by
    intro x y u rank hx hy hrx hry hxy hu
    refine L.adopt h2 hx rank hu fun s' t' h' hsize hroot => ⟨link_size .., ?_⟩
    exact (L.link h' (L.mono hsize.ge hx) (L.mono hsize.ge hy) (hroot ▸ hrx) (hroot ▸ hry) hxy).1
  cases hca : s2.content a with
  | poisoned => exact .unified (link_size ..).ge hlink'
  | unbound rankA hintA =>
    cases hcb : s2.content b with
    | poisoned => exact .unified (link_size ..).ge hlink
    | bound u => exact hadopt rankA ha hb hra hrb hab (hboundB u hcb)
    | unbound rankB hintB =>
      have hnew := L.put hlink (L.mono (link_size ..).ge hb) hstays
        (c := .unbound (min rankA rankB) (hintB <|> hintA)) (by rintro _ ⟨⟩)
      exact .unified (by rw [put_size, link_size]) hnew
  | bound l =>
    cases hcb : s2.content b with
    | poisoned => exact .unified (link_size ..).ge hlink
    | unbound rankB hintB => exact hadopt rankB hb ha hrb hra (Ne.symm hab) (hboundA l hca)
    | bound r =>
      have hrun := hterms h2 (hboundA l hca) (hboundB r hcb)
      simp only [Content.renamed]
      generalize unifyTerms fuel l r s2 = o,
        unifyTerms fuel (l.renamed ρ) (r.renamed ρ) t2 = o' at hrun
      cases hrun with
      | outOfFuel => exact .outOfFuel
      | @failed m m' s3 t3 hm hle h3 =>
        obtain ⟨h4, hsize4⟩ := L.poison h3 (L.mono hle ha)
        obtain ⟨h5, hsize5⟩ := L.poison h4 (L.mono (hle.trans hsize4.ge) hb)
        exact .failed hm (hle.trans (hsize5.trans hsize4).ge) h5
      | @unified s3 t3 hle h3 =>
        obtain ⟨a', s4, t4, hs, ht, h4, hsize4, hroot4, ha', hra'⟩ := L.find h3 (L.mono hle ha)
        obtain ⟨b', s5, t5, hs', ht', h5, hsize5, hroot5, hb', hrb'⟩ :=
          L.find h4 (L.mono (hle.trans hsize4.ge) hb)
        rw [← hroot4, ← hroot5] at hra'
        rw [← hroot5] at hrb'
        have hle5 := hle.trans (hsize5.trans hsize4).ge
        replace ha' := L.mono (hsize5.trans hsize4).ge ha'
        replace hb' := L.mono hsize5.ge hb'
        simp only [hs, ht, hs', ht', L.eq_iff h5 ha' hb']
        split
        · exact .unified hle5 h5
        · rename_i hab'
          exact .unified (hle5.trans (link_size ..).ge) (L.link h5 ha' hb' hra' hrb' hab').1

theorem unifyVar (h : R s t) (hterms : Follows ρ A N R (unifyTerms fuel)) (side : Side)
    (hv : A s (.var v)) (hu : A s u) : Outcome.Alike N R s.size (unifyVar (fuel + 1) side v u s)
      (unifyVar (fuel + 1) side (ρ v) (u.renamed ρ) t) := by
  obtain ⟨r, s1, t1, hs, ht, h1, hsize, hroot, hr, hrr⟩ := L.find h hv
  rw [← hsize]
  rw [← hroot] at hrr
  replace hr := L.mono hsize.ge hr
  replace hu := L.mono hsize.ge hu
  obtain ⟨hcontent, hbound⟩ := L.content h1 hr
  rw [Store.unifyVar, Store.unifyVar]
  simp only [hs, ht, hcontent]
  have hpoison : ∀ s t, s1.size ≤ s.size → R s t →
      s1.size ≤ (s.poison r).size ∧ R (s.poison r) (t.poison (ρ r)) := by
    intro s t hle h
    obtain ⟨hnew, hsize⟩ := L.poison h (L.mono hle hr)
    exact ⟨hle.trans hsize.ge, hnew⟩
  cases hc : s1.content r with
  | poisoned => exact .unified le_rfl h1
  | unbound rank hint =>
    refine L.adopt h1 hr rank hu fun s' t' h' hsize hroot => ⟨put_size .., ?_⟩
    exact L.put h' (L.mono hsize.ge hr) (hroot ▸ hrr) (c := .bound u)
      (by rintro _ ⟨⟩; exact L.mono hsize.ge hu)
  | bound u' =>
    cases side with
    | left => exact (hterms h1 (hbound u' hc) hu).onFailure hpoison
    | right => exact (hterms h1 hu (hbound u' hc)).onFailure hpoison

theorem each (h : R s t) {f : Ty → Ty → Store → Outcome} (hf : Follows ρ A N R f)
    {ps : List (Ty × Ty)} (hps : ∀ p ∈ ps, A s p.1 ∧ A s p.2) :
    Outcome.Alike N R s.size (Outcome.each f ps s)
      (Outcome.each f (ps.map (Prod.map (Ty.renamed ρ) (Ty.renamed ρ))) t) := by
  induction ps generalizing s t with
  | nil => exact .unified le_rfl h
  | cons p ps ih =>
    refine (hf h (hps p (by simp)).1 (hps p (by simp)).2).andThen fun s' t' hle h' => ih h' ?_
    intro q hq
    have hq := hps q (by simp [hq])
    exact ⟨L.mono hle hq.1, L.mono hle hq.2⟩

section Calls

variable (ih : ∀ {s t : Store}, R s t → ∀ c : Call, c.All (A s) →
  Outcome.Alike N R s.size (c.run fuel s) ((c.renamed ρ).run fuel t))

include ih

theorem unifyTerms (h : R s t) (hl : A s l) (hr : A s r) :
    Outcome.Alike N R s.size (unifyTerms (fuel + 1) l r s)
      (unifyTerms (fuel + 1) (l.renamed ρ) (r.renamed ρ) t) := by
  have hpair : Follows ρ A N R (unify fuel) := fun l r _ _ h hl hr => ih h (.types l r) ⟨hl, hr⟩
  obtain ⟨hheadL, htypeL⟩ := L.head fuel h hl
  obtain ⟨hheadR, htypeR⟩ := L.head fuel h hr
  rw [Store.unifyTerms, Store.unifyTerms, hheadL, hheadR]
  cases hdL : s.aliases.head fuel l with
  | none => exact .outOfFuel
  | some hd =>
    replace hl := htypeL hd hdL
    cases hd with
    | stuck l => exact L.shapeMismatch fuel h hl hl
    | settled l =>
      cases hdR : s.aliases.head fuel r with
      | none => exact .outOfFuel
      | some hd =>
        replace hr := htypeR hd hdR
        cases hd with
        | stuck r => exact L.shapeMismatch fuel h hr hr
        | settled r =>
          simp only [AliasTable.Head.type] at hl hr
          have htypes := hpair h hl hr
          have hclash := L.shapeMismatch fuel h hl hr
          cases l <;> cases r <;> first | exact htypes | exact hclash | skip
          case func.func a b c d =>
            obtain ⟨ha, hb⟩ := L.func hl
            obtain ⟨hc, hd⟩ := L.func hr
            exact (hpair h ha hc).andThen fun s' t' hle h' => hpair h' (L.mono hle hb) (L.mono hle hd)
          case app.app f as g bs =>
            simp only [Option.map_some, AliasTable.Head.renamed, Ty.renamed_app,
              List.length_map] at hclash ⊢
            split
            · rw [List.zip_map]
              refine L.each h hpair fun q hq => ?_
              obtain ⟨hq1, hq2⟩ := List.of_mem_zip hq
              exact ⟨L.app hl _ hq1, L.app hr _ hq2⟩
            · exact hclash
          case record.record fs ext gs ext' =>
            have hgather := L.gather h fuel hl
            simp only [Option.map_some, AliasTable.Head.renamed, Ty.renamed_record]
            generalize s.gather fuel fs ext = x,
              t.gather fuel (Assoc.mapValues (Ty.renamed ρ) fs) (ext.map ρ) = y at hgather
            cases hgather with
            | none => exact .outOfFuel
            | @some x y hxy =>
              obtain ⟨rowL, s1⟩ := x
              obtain ⟨rowL', t1⟩ := y
              obtain ⟨rfl, hL, h1, hsize1⟩ := hxy
              have hgather := L.gather h1 fuel (L.mono hsize1.ge hr)
              dsimp only at hgather ⊢
              generalize s1.gather fuel gs ext' = x,
                t1.gather fuel (Assoc.mapValues (Ty.renamed ρ) gs) (ext'.map ρ) = y at hgather
              cases hgather with
              | none => exact .outOfFuel
              | @some x y hxy =>
                obtain ⟨rowR, s2⟩ := x
                obtain ⟨rowR', t2⟩ := y
                obtain ⟨rfl, hR, h2, hsize2⟩ := hxy
                have hsize := hsize2.trans hsize1
                have hrun := ih h2 (.rows rowL rowR (.record fs ext) (.record gs ext'))
                  ⟨L.mono hsize.ge hL, L.mono hsize2.ge hR, L.mono hsize.ge hl, L.mono hsize.ge hr⟩
                rw [hsize] at hrun
                simpa only [Call.run, Call.renamed, Ty.renamed_record] using hrun

omit ih in
theorem unmatched (h : R s t) {rowL rowR : Row} (hL : A s (rowType rowL)) (hR : A s (rowType rowR)) :
    unmatched (rowL.renamed ρ) (rowR.renamed ρ) = (unmatched rowL rowR).map
      (Prod.map (Assoc.mapValues (Ty.renamed ρ)) (Assoc.mapValues (Ty.renamed ρ))) := by
  have hempty : ∀ fs : List (String × Ty),
      (Assoc.mapValues (Ty.renamed ρ) fs).isEmpty = fs.isEmpty := fun fs => List.isEmpty_map
  obtain ⟨fs, tailL⟩ := rowL
  obtain ⟨gs, tailR⟩ := rowR
  simp only [Store.unmatched, Row.renamed, Assoc.without_mapValues, hempty]
  cases tailL with
  | spoiled => rfl
  | closed => cases tailR <;> simp only [Tail.renamed, apply_ite (Option.map _)] <;> rfl
  | opened v =>
    cases tailR with
    | spoiled => rfl
    | closed => simp only [Tail.renamed, apply_ite (Option.map _)]; rfl
    | opened w =>
      simp only [Tail.renamed, L.eq_iff h (L.tail_of_row hL rfl) (L.tail_of_row hR rfl),
        apply_ite (Option.map _)]
      rfl

theorem unifyRows (h : R s t) {rowL rowR : Row} (hL : A s (rowType rowL)) (hR : A s (rowType rowR))
    (hl : A s l) (hr : A s r) : Outcome.Alike N R s.size (unifyRows (fuel + 1) rowL rowR l r s)
      (unifyRows (fuel + 1) (rowL.renamed ρ) (rowR.renamed ρ) (l.renamed ρ) (r.renamed ρ) t) := by
  rw [unifyRows_succ, unifyRows_succ]
  simp only [Row.renamed, Assoc.shared_mapValues]
  refine (L.each h (fun l r _ _ h hl hr => ih h (.types l r) ⟨hl, hr⟩) fun q hq => ?_).andThen
    fun s' t' hle h' => ?_
  · obtain ⟨k, hq1, hq2⟩ := mem_shared hq
    exact ⟨(L.record hL).1 _ hq1, (L.record hR).1 _ (Assoc.mem_of_get? hq2)⟩
  replace hL := L.mono hle hL
  replace hR := L.mono hle hR
  have hun := L.unmatched h' hL hR
  simp only [Row.renamed] at hun
  have honly : ∀ {row row' : Row}, A s' (rowType row) →
      A s' (.record (Assoc.without row.fields row'.fields) none) := fun hrow =>
    L.rebuild hrow (fun f hf => (L.record hrow).1 f (List.mem_filter.mp hf).1) (by rintro _ ⟨⟩)
  simp only [ends, hun]
  cases Store.unmatched rowL rowR with
  | some q => exact L.fieldsMismatch h' q.1 q.2 (L.mono hle hl) (L.mono hle hr)
  | none =>
    cases htL : rowL.tail with
    | spoiled => exact .unified le_rfl h'
    | closed =>
      cases htR : rowR.tail with
      | opened w =>
        have hrun := ih h' (.var .right w (.record (Assoc.without rowL.fields rowR.fields) none))
          ⟨L.tail_of_row hR htR, honly hL⟩
        simpa only [Tail.renamed, Option.map_none, Assoc.without_mapValues, Call.run,
          Call.renamed, Ty.renamed_record] using hrun
      | _ => exact .unified le_rfl h'
    | opened v =>
      have hv := L.tail_of_row hL htL
      cases htR : rowR.tail with
      | spoiled => exact .unified le_rfl h'
      | closed =>
        have hrun := ih h' (.var .left v (.record (Assoc.without rowR.fields rowL.fields) none))
          ⟨hv, honly hR⟩
        simpa only [Tail.renamed, Option.map_none, Assoc.without_mapValues, Call.run,
          Call.renamed, Ty.renamed_record] using hrun
      | opened w =>
        have hw := L.tail_of_row hR htR
        obtain ⟨hs', ht'⟩ := L.linksEnd h'
        cases hrank : s'.restRank v w with
        | mk rank s'' =>
        cases hrank' : t'.restRank (ρ v) (ρ w) with
        | mk rank' t'' =>
        obtain ⟨htail, h1⟩ := restRank_spec hrank
        obtain ⟨htail', h1'⟩ := restRank_spec hrank'
        have h'' := L.relinked h' h1 h1'
        have hsize := h1.size hs'
        have hmono : ∀ {u : Ty}, A s' u → A s'' u := L.mono hsize.ge
        have heq : rank' = rank := by
          rw [← htail, ← htail', tailRank, tailRank, L.rank? h'' (hmono hv), L.rank? h'' (hmono hw)]
        simp only [Tail.renamed, Option.map_none, L.eq_iff h' hv hw, hrank, hrank', heq,
          Assoc.without_mapValues]
        rw [← hsize]
        split
        · exact .unified hsize.le h'
        · cases rank with
          | none => exact .unified le_rfl h''
          | some rank =>
            exact ih h'' (.tails v w _ _ _) ⟨hmono hv, hmono hw, hmono (honly hL), hmono (honly hR)⟩

theorem openTails (h : R s t) (hv : A s (.var v)) (hw : A s (.var w)) (rank : Rank)
    {onlyLeft onlyRight : List (String × Ty)} (hleft : A s (.record onlyLeft none))
    (hright : A s (.record onlyRight none)) :
    Outcome.Alike N R s.size (openTails (fuel + 1) v w rank onlyLeft onlyRight s)
      (openTails (fuel + 1) (ρ v) (ρ w) rank (Assoc.mapValues (Ty.renamed ρ) onlyLeft)
        (Assoc.mapValues (Ty.renamed ρ) onlyRight) t) := by
  obtain ⟨hfresh, hname, hrest⟩ := L.fresh rank h
  have hsize : s.size ≤ (s.fresh rank none).2.size := by rw [fresh_size]; omega
  have htake : ∀ {fields : List (String × Ty)} {x : Var} (side : Side) {s' t' : Store},
      A s (.record fields none) → A s (.var x) → (s.fresh rank none).2.size ≤ s'.size → R s' t' →
      Outcome.Alike N R s'.size (Store.unifyVar fuel side x (.record fields (some s.size)) s')
        (Store.unifyVar fuel side (ρ x)
          (.record (Assoc.mapValues (Ty.renamed ρ) fields) (some t.size)) t') := by
    intro fields x side s' t' hfields hx hle h'
    have hfields := L.mono (hsize.trans hle) hfields
    have hrecord : A s' (.record fields (some s.size)) :=
      L.rebuild hfields (L.record hfields).1 (by rintro _ ⟨⟩; exact L.mono hle hrest)
    have hrun := ih h' (.var side x (.record fields (some s.size)))
      ⟨L.mono (hsize.trans hle) hx, hrecord⟩
    simpa only [Call.run, Call.renamed, Ty.renamed_record, Option.map_some, hname] using hrun
  rw [Store.openTails, Store.openTails]
  refine Outcome.Alike.mono ?_ hsize
  exact (htake .left hright hv le_rfl hfresh).andThen fun s' t' hle h' =>
    htake .right hleft hw hle h'

end Calls

theorem run (h : R s t) (fuel : Nat) (c : Call) (hc : c.All (A s)) :
    Outcome.Alike N R s.size (c.run fuel s) ((c.renamed ρ).run fuel t) := by
  induction fuel generalizing c s t with
  | zero => cases c <;> exact .outOfFuel
  | succ fuel ih =>
    have hterms : Follows ρ A N R (Store.unifyTerms fuel) := fun l r _ _ h hl hr =>
      ih h (.terms l r) ⟨hl, hr⟩
    cases c with
    | types l r =>
      cases l with
      | var v =>
        cases r with
        | var w => exact ih h (.vars v w) hc
        | _ => exact ih h (.var .left v _) hc
      | _ =>
        cases r with
        | var w => exact ih h (.var .right w _) hc.symm
        | _ => exact ih h (.terms _ _) hc
    | vars v w => exact L.unifyVars h hterms hc.1 hc.2
    | var side v u => exact L.unifyVar h hterms side hc.1 hc.2
    | terms l r => exact L.unifyTerms ih h hc.1 hc.2
    | rows rowL rowR l r => exact L.unifyRows ih h hc.1 hc.2.1 hc.2.2.1 hc.2.2.2
    | tails v w rank onlyLeft onlyRight =>
      exact L.openTails ih h hc.1 hc.2.1 rank hc.2.2.1 hc.2.2.2

end Lockstep
end Store
end TypeSolver
