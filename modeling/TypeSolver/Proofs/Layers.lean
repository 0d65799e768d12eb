import TypeSolver.Proofs.Discharge
import TypeSolver.Proofs.Quantifiers

/-!
# TypeSolver.Proofs.Layers

The work that is left at a moment, in layers. A layer is a constraint with the rank and the context
that it is solved in; where the boundary of a group has still to be left, the layer is about the
header of the group too. Layers further down have lower ranks, and share with those above only what
was made at their own rank or further outside (`Follows`).

`Tiered` is what holds at each moment of a run without errors. Variables that are made further
inside than the layer that mentions them have not been touched (`Isolated`), what a variable leads
to has sunk to the rank at which the variable was made (`Sunk`), and nothing that is left to do leads to a
quantifier of a scheme in scope, other than by the scheme itself (`Clear`). It lasts as long as the
demands are discharged (`Tiered.discharge`); where all types are first-order, they always are
(`Layered`).
-/

namespace TypeSolver

open Store

/-! ## Layers -/

structure Layer where
  rank : Rank
  context : Context
  /-- The header of the group whose boundary has to be left before `rest` is solved. -/
  header : Header := []
  rest : Constraint

namespace Layer

def Mentions (L : Layer) (v : Var) : Prop := (∃ e ∈ L.header, v ∈ e.2.vars) ∨ L.rest.Mentions v

/-- The variable is made at a boundary inside the layer. -/
def Encloses (made : Var → Rank) (L : Layer) (v : Var) : Prop := L.rest.Mentions v ∧ L.rank < made v

/-- A layer over the first `n` variables and types with the property `P`. -/
structure Orderly (P : Ty → Prop) (made : Var → Rank) (n : Nat) (L : Layer) : Prop where
  inScope : L.rest.Scoped made L.rank
  types : L.rest.Types P
  header : ∀ e ∈ L.header, P e.2
  apart : ∀ e ∈ L.header, ∀ v ∈ e.2.vars, L.rest.Mentions v → made v ≤ L.rank
  lt : ∀ v, L.Mentions v → v < n

/-- The layer `L'` comes somewhere below `L`. -/
structure Follows (made : Var → Rank) (L L' : Layer) : Prop where
  rank_le : L'.rank ≤ L.rank
  header : ∀ e ∈ L'.header, ∀ v ∈ e.2.vars, made v ≤ L.rank
  apart : ∀ v, L.Mentions v → L'.rest.Mentions v → made v ≤ L'.rank

structure Stacked (P : Ty → Prop) (made : Var → Rank) (n : Nat) (Ls : List Layer) : Prop where
  orderly : ∀ L ∈ Ls, L.Orderly P made n
  follows : Ls.Pairwise (Follows made)

/-- The layers that take the place of a layer when it is taken up. -/
inductive Splits (s : Store) : Layer → List Layer → Prop where
  | done {L : Layer} : Splits s L []
  | conj {k : Rank} {ctx : Context} {items : List Constraint} :
      Splits s { rank := k, context := ctx, rest := .conj items }
        (items.map fun c => { rank := k, context := ctx, rest := c })
  | enter {k : Rank} {ctx : Context} {vars : List Var} {header : Header} {defs body : Constraint} :
      Splits s { rank := k, context := ctx, rest := .letIn vars header defs body }
        [{ rank := k + 1, context := ctx, rest := defs }, ⟨k, ctx, header, body⟩]
  | leave {k : Rank} {ctx : Context} {header : Header} {body : Constraint} {scheme : Scheme} :
      scheme.header = header → scheme.quantifiers = s.generalizable header k →
      Splits s ⟨k, ctx, header, body⟩
        [{ rank := k, context := Solver.bindNames ctx header scheme, rest := body }]

end Layer

/-- The layers of the work that is left, where the first task is taken up at rank `k`. -/
def layers : Rank → List Task → List Layer
  | _, [] => []
  | k, .solve ctx c :: ws => { rank := k, context := ctx, rest := c } :: layers k ws
  | _, .leave ctx outer _ header _ body _ :: ws => ⟨outer, ctx, header, body⟩ :: layers outer ws
  | k, .restore _ :: ws => layers k ws

def Moment.layers (m : Moment) : List Layer := TypeSolver.layers m.state.rank m.work

theorem layers_items (k : Rank) (ctx : Context) (items : List Constraint) (ws : List Task) :
    layers k (items.map (.solve ctx) ++ ws) =
      (items.map fun c => { rank := k, context := ctx, rest := c }) ++ layers k ws := by
  induction items with
  | nil => rfl
  | cons c cs ih => rw [List.map_cons, List.cons_append, layers, ih]; rfl

theorem Moment.Step.layers_cases {fuel : Nat} {m m' : Moment} (h : Step fuel m m')
    (hl : m.state.store.LinksEnd) :
    Relinked m.state.store m'.state.store ∧ m'.madeAt = m.madeAt ∧ (m'.layers = m.layers ∨
      ∃ L Ls new, m.layers = L :: Ls ∧ m'.layers = new ++ Ls ∧ L.Splits m.state.store new) ∨
    ∃ ctx c ws, m.work = .solve ctx c :: ws ∧
      m.layers = { rank := m.state.rank, context := ctx, rest := c } :: m'.layers ∧
      m'.madeAt = m.noted ∧
      ((∃ expected actual span, c = .equal expected actual span ∧
        m.state.equate fuel expected actual span = .done () m'.state) ∨
      ∃ name ty span, c = .instanceOf name ty span ∧
        m.state.equateInstance fuel ctx name ty span = .done () m'.state) := by
  cases h with
  | trivial => exact .inl ⟨.refl, rfl, .inr ⟨_, _, [], rfl, rfl, .done⟩⟩
  | checkpoint => exact .inl ⟨.refl, rfl, .inr ⟨_, _, [], rfl, rfl, .done⟩⟩
  | @equal ctx _ _ _ ws st st' _ h =>
    refine .inr ⟨ctx, _, ws, rfl, ?_, rfl, .inl ⟨_, _, _, rfl, h⟩⟩
    simp only [Moment.layers, Solver.rank_of_equate h]
    rfl
  | @instanceOf ctx _ _ _ ws st st' _ h =>
    refine .inr ⟨ctx, _, ws, rfl, ?_, rfl, .inr ⟨_, _, _, rfl, h⟩⟩
    simp only [Moment.layers, Solver.rank_of_equateInstance h]
    rfl
  | conj => exact .inl ⟨.refl, rfl, .inr ⟨_, _, _, rfl, layers_items .., .conj⟩⟩
  | enter => exact .inl ⟨.refl, rfl, .inr ⟨_, _, [_, _], rfl, rfl, .enter⟩⟩
  | @leave _ outer _ header =>
    exact .inl ⟨generalize_relinked hl header outer, rfl, .inr ⟨_, _, [_], rfl, rfl,
      .leave rfl (generalize_fst hl header outer)⟩⟩
  | restore => exact .inl ⟨.refl, rfl, .inl rfl⟩

namespace Layer

variable {P : Ty → Prop} {made : Var → Rank} {n : Nat} {s : Store} {L L' X : Layer}
  {new Ls : List Layer} {v : Var}

/-! ## Taking up a layer -/

theorem mem_bindNames {ctx : Context} {header : Header} {scheme : Scheme} {e : String × Scheme}
    (h : e ∈ Solver.bindNames ctx header scheme) : e ∈ ctx ∨ e.2 = scheme := by
  suffices ∀ (names : List String) (ctx : Context),
      e ∈ names.foldl (fun ctx name => Assoc.insert ctx name scheme) ctx →
      e ∈ ctx ∨ e.2 = scheme from this _ ctx h
  intro names
  induction names with
  | nil => exact fun ctx h => .inl h
  | cons name names ih =>
    intro ctx h
    rcases ih _ h with h | h
    · rcases Assoc.mem_of_mem_insert h with rfl | h
      · exact .inr rfl
      · exact .inl h
    · exact .inr h

namespace Splits

variable (h : L.Splits s new)

include h

theorem mentions (hL : L' ∈ new) (hv : L'.Mentions v) : L.Mentions v := by
  cases h with
  | done => cases hL
  | conj =>
    obtain ⟨c, hc, rfl⟩ := List.mem_map.mp hL
    exact .inr (.item hc (hv.resolve_left (by simp)))
  | enter =>
    simp only [List.mem_cons, List.not_mem_nil, or_false] at hL
    rcases hL with rfl | rfl
    · exact .inr (.defs (hv.resolve_left (by simp)))
    · rcases hv with ⟨e, he, hv⟩ | hv
      · exact .inr (.header he hv)
      · exact .inr (.body hv)
  | leave =>
    obtain rfl := List.mem_singleton.mp hL
    exact .inr (hv.resolve_left (by simp))

theorem rank_le (hL : L' ∈ new) : L.rank ≤ L'.rank := by
  cases h with
  | done => cases hL
  | conj => obtain ⟨c, _, rfl⟩ := List.mem_map.mp hL; exact le_rfl
  | enter =>
    simp only [List.mem_cons, List.not_mem_nil, or_false] at hL
    rcases hL with rfl | rfl
    · exact Nat.le_succ _
    · exact le_rfl
  | leave => obtain rfl := List.mem_singleton.mp hL; exact le_rfl

theorem encloses (hL : L' ∈ new) (hv : L'.Encloses made v) : L.Encloses made v := by
  refine ⟨?_, (h.rank_le hL).trans_lt hv.2⟩
  obtain ⟨hv, _⟩ := hv
  cases h with
  | done => cases hL
  | conj => obtain ⟨c, hc, rfl⟩ := List.mem_map.mp hL; exact .item hc hv
  | enter =>
    simp only [List.mem_cons, List.not_mem_nil, or_false] at hL
    rcases hL with rfl | rfl
    · exact .defs hv
    · exact .body hv
  | leave => obtain rfl := List.mem_singleton.mp hL; exact hv

theorem scheme (hL : L' ∈ new) {e : String × Scheme} (he : e ∈ L'.context) :
    e ∈ L.context ∨ e.2.header = L.header ∧ e.2.quantifiers = s.generalizable L.header L.rank ∧
      L'.rest = L.rest ∧ L'.header = [] ∧ new = [L'] := by
  cases h with
  | done => cases hL
  | conj => obtain ⟨c, _, rfl⟩ := List.mem_map.mp hL; exact .inl he
  | enter =>
    simp only [List.mem_cons, List.not_mem_nil, or_false] at hL
    rcases hL with rfl | rfl <;> exact .inl he
  | leave hh hq =>
    obtain rfl := List.mem_singleton.mp hL
    refine (mem_bindNames he).imp_right ?_
    intro heq
    exact ⟨heq ▸ hh, heq ▸ hq, rfl, rfl, rfl⟩

theorem orderly (hord : L.Orderly P made n) (hL : L' ∈ new) : L'.Orderly P made n := by
  have hlt : ∀ v, L'.Mentions v → v < n := fun v hv => hord.lt v (h.mentions hL hv)
  obtain ⟨hscope, htypes, hheader, hapart, _⟩ := hord
  cases h with
  | done => cases hL
  | conj =>
    obtain ⟨c, hc, rfl⟩ := List.mem_map.mp hL
    cases hscope with | conj hs _ =>
    cases htypes with | conj ht =>
    exact ⟨hs c hc, ht c hc, nofun, nofun, hlt⟩
  | enter =>
    cases hscope with | letIn hh hd hb _ =>
    cases htypes with | letIn hth htd htb =>
    simp only [List.mem_cons, List.not_mem_nil, or_false] at hL
    rcases hL with rfl | rfl
    · exact ⟨hd, htd, nofun, nofun, hlt⟩
    · exact ⟨hb, htb, hth, fun e he v hv => (hh e he v hv).2, hlt⟩
  | leave =>
    obtain rfl := List.mem_singleton.mp hL
    exact ⟨hscope, htypes, nofun, nofun, hlt⟩

theorem pairwise (hord : L.Orderly P made n) : new.Pairwise (Follows made) := by
  obtain ⟨hscope, _, _, _, _⟩ := hord
  cases h with
  | done => exact .nil
  | conj =>
    cases hscope with | conj _ hp =>
    rw [List.pairwise_map]
    refine hp.imp fun happ => ⟨le_rfl, nofun, fun v hv hv' => ?_⟩
    exact happ v (hv.resolve_left (by simp)) hv'
  | enter =>
    cases hscope with | letIn hh _ _ happ =>
    simp only [List.pairwise_cons, List.mem_singleton, forall_eq, List.not_mem_nil,
      false_imp_iff, implies_true, List.Pairwise.nil, and_true]
    refine ⟨Nat.le_succ _, fun e he v hv => (hh e he v hv).1, fun v hv hv' => ?_⟩
    exact happ v (hv.resolve_left (by simp)) hv'
  | leave => exact List.pairwise_singleton ..

theorem follows (hL : L' ∈ new) (hX : Follows made L X) : Follows made L' X :=
  ⟨hX.rank_le.trans (h.rank_le hL), fun e he v hv => (hX.header e he v hv).trans (h.rank_le hL),
    fun v hv => hX.apart v (h.mentions hL hv)⟩

theorem stacked (hLs : Stacked P made n (L :: Ls)) : Stacked P made n (new ++ Ls) := by
  obtain ⟨hord, hfol⟩ := hLs
  obtain ⟨hL, hfol⟩ := List.pairwise_cons.mp hfol
  refine ⟨fun X hX => ?_, List.pairwise_append.mpr ⟨h.pairwise (hord L (by simp)), hfol,
    fun L' hL' X hX => h.follows hL' (hL X hX)⟩⟩
  rcases List.mem_append.mp hX with hX | hX
  · exact h.orderly (hord L (by simp)) hX
  · exact hord X (by simp [hX])

end Splits
end Layer

/-! ## Variables that stay what they are -/

namespace Store

variable {s s' : Store}

theorem mem_generalizable (h : s.Formed) {header : Header} {outer : Rank}
    (hlt : ∀ e ∈ header, ∀ v ∈ e.2.vars, v < s.size) {r : Var} :
    r ∈ s.generalizable header outer ↔
      (∃ e ∈ header, ∃ v ∈ e.2.vars, s.Reaches v r) ∧ ∃ k, s.rank? r = some k ∧ outer < k :=
  mem_generalizable_iff h.forest h.contained hlt

/-- What a variable leads to has at most the rank at which the variable was made. -/
def Sunk (s : Store) (made : Var → Rank) : Prop :=
  ∀ v r k, v < s.size → s.Reaches v r → s.rank? r = some k → k ≤ made v

theorem Sunk.within (h : s.Sunk made) {v : Var} (hv : v < s.size) :
    s.Within (fun _ => False) (made v) v := fun r k hr hk => .inr (h v r k hv hr hk)

end Store

/-- Nothing in the layers leads to the unbound root `q`, apart from the types of schemes that are
quantified over it. -/
structure Clear (Ls : List Layer) (s : Store) (q : Var) : Prop where
  root : s.root q = q
  free : s.kind q = .free
  mentions : ∀ L ∈ Ls, ∀ v, L.Mentions v → ¬ s.Reaches v q
  schemes : ∀ L ∈ Ls, ∀ e ∈ L.context, ∀ h ∈ e.2.header, ∀ v ∈ h.2.vars,
    s.Reaches v q → q ∈ e.2.quantifiers

/-- A scheme in the scope of a layer of the given rank, over types with the property `P`. -/
structure Scheme.Settled (P : Ty → Prop) (made : Var → Rank) (n : Nat) (Ls : List Layer) (s : Store)
    (rank : Rank) (scheme : Scheme) : Prop where
  types : ∀ h ∈ scheme.header, P h.2
  lt : ∀ h ∈ scheme.header, ∀ v ∈ h.2.vars, v < n
  outside : ∀ h ∈ scheme.header, ∀ v ∈ h.2.vars, ∀ L ∈ Ls, ¬ L.Encloses made v
  reached : ∀ h ∈ scheme.header, ∀ v ∈ h.2.vars, s.Within (· ∈ scheme.quantifiers) rank v
  clear : ∀ q ∈ scheme.quantifiers, Clear Ls s q

/-- What holds at each moment of a run without errors. Of the variables, `n` were there before the
run, made at the ranks that `made` gives; `madeAt` are the ranks of all. The types in the layers have
the property `P`. -/
structure Tiered (P : Ty → Prop) (made : Var → Rank) (n : Nat) (Ls : List Layer) (s : Store)
    (madeAt : Var → Rank) : Prop where
  formed : s.Formed
  size_le : n ≤ s.size
  agrees : ∀ v < n, madeAt v = made v
  stacked : Layer.Stacked P made n Ls
  sunk : s.Sunk madeAt
  isolated : ∀ L ∈ Ls, ∀ v, L.Encloses made v → s.Isolated v
  schemes : ∀ L ∈ Ls, ∀ e ∈ L.context, e.2.Settled P made n Ls s L.rank

structure Layered (made : Var → Rank) (n : Nat) (Ls : List Layer) (s : Store)
    (madeAt : Var → Rank) : Prop
    extends Tiered (·.FirstOrder s.aliases) made n Ls s madeAt where
  firstOrder : s.FirstOrder

variable {P : Ty → Prop} {made madeAt : Var → Rank} {n : Nat} {s s' : Store} {L : Layer}
  {Ls new : List Layer} {q v : Var}

theorem Scheme.Settled.mono {k k' : Rank} {scheme : Scheme} (h : scheme.Settled P made n Ls s k)
    (hk : k ≤ k') : scheme.Settled P made n Ls s k' :=
  { h with reached := fun e he v hv => (h.reached e he v hv).mono hk }

theorem Clear.lt (h : Clear Ls s q) : q < s.size := lt_of_kind (by rw [h.free]; simp)

/-! ## Lookups -/

section Lookups

variable (h : Relinked s s') (hs : s.LinksEnd)

include h hs

theorem Clear.relinked (hq : Clear Ls s q) : Clear Ls s' q := by
  have hreaches {v r} : s'.Reaches v r ↔ s.Reaches v r := (h.alike hs).reaches
  refine ⟨(h.root hs q).trans hq.root, (h.kind hs q).trans hq.free, fun L hL v hv hr => ?_,
    fun L hL e he t ht v hv hr => ?_⟩
  · exact hq.mentions L hL v hv (hreaches.mp hr)
  · exact hq.schemes L hL e he t ht v hv (hreaches.mp hr)

theorem Store.Spares.of_relinked (hq : s.root q = q) : Spares q s s' :=
  ⟨(h.root hs q).trans hq, h.content hs q, fun _ hn hr => hn ((h.alike hs).reaches.mp hr)⟩

theorem Store.Within.relinked {Q : Var → Prop} {k : Rank} (hv : s.Within Q k v) : s'.Within Q k v :=
  fun r j hr hj => hv r j ((h.alike hs).reaches.mp hr) ((h.rank? hs r).symm.trans hj)

theorem Tiered.relinked (ht : Tiered P made n Ls s madeAt) : Tiered P made n Ls s' madeAt where
  formed := (h.alike hs).formed (h.forest ht.formed.forest) ht.formed
  size_le := by rw [h.size hs]; exact ht.size_le
  agrees := ht.agrees
  stacked := ht.stacked
  sunk v r k hv hr hk := by
    rw [h.size hs] at hv
    rw [h.rank? hs] at hk
    exact ht.sunk v r k hv ((h.alike hs).reaches.mp hr) hk
  isolated L hL v hv := (ht.isolated L hL v hv).spares (.of_relinked h hs (ht.isolated L hL v hv).root)
  schemes L hL e he := { ht.schemes L hL e he with
    reached := fun t hm v hv => .relinked h hs ((ht.schemes L hL e he).reached t hm v hv)
    clear := fun q hq => ((ht.schemes L hL e he).clear q hq).relinked h hs }

theorem Store.Refines.of_relinked (hfo : s.FirstOrder) : Refines s s' := by
  have hal := h.alike hs
  have hf := h.forest hfo.forest
  refine ⟨hfo.alike hf hal, hal.size.ge, hal.aliases, fun θ => hal.solvedBy.mp, .of_free hf ?_⟩
  exact fun v k hk => ⟨k, (h.rank? hs v).trans hk, Nat.le_refl k⟩

end Lookups

/-! ## Layers that are taken up -/

theorem Clear.split (h : Clear (L :: Ls) s q) (hsplit : L.Splits s new) : Clear (new ++ Ls) s q := by
  refine ⟨h.root, h.free, fun X hX v hv => ?_, fun X hX e he t ht v hv hr => ?_⟩
  · rcases List.mem_append.mp hX with hX | hX
    · exact h.mentions L (by simp) v (hsplit.mentions hX hv)
    · exact h.mentions X (by simp [hX]) v hv
  · rcases List.mem_append.mp hX with hX | hX
    · rcases hsplit.scheme hX he with he | ⟨hheader, _⟩
      · exact h.schemes L (by simp) e he t ht v hv hr
      · -- the scheme of the group: its types were mentioned
        rw [hheader] at ht
        exact absurd hr (h.mentions L (by simp) v (.inl ⟨t, ht, hv⟩))
    · exact h.schemes X (by simp [hX]) e he t ht v hv hr

theorem encloses_split (hsplit : L.Splits s new)
    (h : ∃ X ∈ new ++ Ls, X.Encloses made v) : ∃ X ∈ L :: Ls, X.Encloses made v := by
  obtain ⟨X, hX, hv⟩ := h
  rcases List.mem_append.mp hX with hX | hX
  · exact ⟨L, by simp, hsplit.encloses hX hv⟩
  · exact ⟨X, by simp [hX], hv⟩

namespace Tiered

variable {e : String × Ty}

variable (h : Tiered P made n (L :: Ls) s madeAt)

include h

theorem header_outside (he : e ∈ L.header) (hv : v ∈ e.2.vars) :
    ∀ X ∈ L :: Ls, ¬ X.Encloses made v := by
  rintro X hX ⟨hmen, hlt⟩
  rcases List.mem_cons.mp hX with rfl | hX
  · have hle := (h.stacked.orderly X (by simp)).apart e he v hv hmen
    exact absurd hle hlt.not_ge
  · have hle := ((List.pairwise_cons.mp h.stacked.follows).1 X hX).apart v (.inl ⟨e, he, hv⟩) hmen
    exact absurd hle hlt.not_ge

/-- A header does not lead to what is inside the layers. -/
theorem not_reaches_of_encloses (he : e ∈ L.header) (hv : v ∈ e.2.vars) (hr : s.Reaches v q)
    {X : Layer} (hX : X ∈ L :: Ls) {w : Var} (hw : X.Encloses made w) : ¬ s.Reaches w q := by
  intro hwq
  have hiso := h.isolated X hX w hw
  obtain rfl := hiso.eq_of_reaches hwq
  obtain rfl := hiso.only v hr
  exact h.header_outside he hv X hX hw

theorem not_reaches_of_header (he : e ∈ L.header) (hv : v ∈ e.2.vars) (hr : s.Reaches v q)
    {k : Rank} (hk : s.rank? q = some k) (hlt : L.rank < k) {w : Var}
    (hw : L.rest.Mentions w ∨ ∃ X ∈ Ls, X.Mentions w) : ¬ s.Reaches w q := by
  intro hwq
  have hle : w < n → k ≤ made w := fun hwn => by
    rw [← h.agrees w hwn]
    exact h.sunk w q k (hwn.trans_le h.size_le) hwq hk
  rcases hw with hw | ⟨X, hX, hw⟩
  · have hwn := (h.stacked.orderly L (by simp)).lt w (.inr hw)
    have henc : L.Encloses made w := ⟨hw, hlt.trans_le (hle hwn)⟩
    exact h.not_reaches_of_encloses he hv hr (by simp) henc hwq
  · have hwn := (h.stacked.orderly X (by simp [hX])).lt w hw
    have hfol := (List.pairwise_cons.mp h.stacked.follows).1 X hX
    rcases hw with ⟨e', he', hw⟩ | hw
    · exact absurd ((hle hwn).trans (hfol.header e' he' w hw)) hlt.not_ge
    · have henc : X.Encloses made w :=
        ⟨hw, hfol.rank_le.trans_lt (hlt.trans_le (hle hwn))⟩
      exact h.not_reaches_of_encloses he hv hr (by simp [hX]) henc hwq

theorem clear_of_generalizable {L' : Layer} (hsplit : L.Splits s [L']) (hrest : L'.rest = L.rest)
    (hnil : L'.header = []) (hq : q ∈ s.generalizable L.header L.rank) : Clear (L' :: Ls) s q := by
  have hord := h.stacked.orderly L (by simp)
  have hhlt : ∀ e ∈ L.header, ∀ v ∈ e.2.vars, v < s.size := fun e he v hv =>
    (hord.lt v (.inl ⟨e, he, hv⟩)).trans_le h.size_le
  obtain ⟨⟨e, he, v, hv, hr⟩, k, hk, hlt⟩ := (mem_generalizable h.formed hhlt).mp hq
  refine ⟨hr.root_eq h.formed.forest, kind_eq_free_iff_rank?.mpr ⟨k, hk⟩,
    fun X hX w hw => ?_, fun X hX e' he' t ht w hw hwq => ?_⟩
  · refine h.not_reaches_of_header he hv hr hk hlt ?_
    rcases List.mem_cons.mp hX with rfl | hX
    · rw [Layer.Mentions, hnil, hrest] at hw
      exact .inl (hw.resolve_left (by simp))
    · exact .inr ⟨X, hX, hw⟩
  · -- a scheme of a layer of lower rank is quantified over all that did not sink
    have hold : ∀ Y ∈ L :: Ls, e' ∈ Y.context → Y.rank ≤ L.rank → q ∈ e'.2.quantifiers :=
      fun Y hY he' hle => ((h.schemes Y hY e' he').reached t ht w hw q k hwq hk).resolve_right
        (Nat.not_le.mpr (hle.trans_lt hlt))
    rcases List.mem_cons.mp hX with rfl | hX
    · rcases hsplit.scheme (by simp) he' with he' | ⟨_, hquant, _⟩
      · exact hold L (by simp) he' le_rfl
      · rwa [hquant]
    · exact hold X (by simp [hX]) he'
        ((List.pairwise_cons.mp h.stacked.follows).1 X hX).rank_le

theorem settled_of_header {L' : Layer} (hsplit : L.Splits s [L']) (hrest : L'.rest = L.rest)
    (hnil : L'.header = []) {scheme : Scheme} (hheader : scheme.header = L.header)
    (hquant : scheme.quantifiers = s.generalizable L.header L.rank) :
    scheme.Settled P made n (L' :: Ls) s L'.rank := by
  have hord := h.stacked.orderly L (by simp)
  have hlt : ∀ e ∈ L.header, ∀ v ∈ e.2.vars, v < n := fun e he v hv =>
    hord.lt v (.inl ⟨e, he, hv⟩)
  refine ⟨by rw [hheader]; exact hord.header, by rw [hheader]; exact hlt,
    fun e he v hv X hX henc => ?_, fun e he v hv r k hr hk => ?_, fun q hq => ?_⟩
  · obtain ⟨Y, hY, henc⟩ := encloses_split hsplit ⟨X, hX, henc⟩
    exact h.header_outside (hheader ▸ he) hv Y hY henc
  · rcases Nat.lt_or_ge L.rank k with hlt' | hge
    · refine .inl ?_
      show r ∈ scheme.quantifiers
      rw [hquant, mem_generalizable h.formed fun e he v hv =>
        (hlt e he v hv).trans_le h.size_le]
      exact ⟨⟨e, hheader ▸ he, v, hv, hr⟩, k, hk, hlt'⟩
    · exact .inr (hge.trans (hsplit.rank_le (by simp)))
  · rw [hquant] at hq
    exact h.clear_of_generalizable hsplit hrest hnil hq

theorem split (hsplit : L.Splits s new) : Tiered P made n (new ++ Ls) s madeAt := by
  have hold : ∀ (scheme : Scheme) rank, scheme.Settled P made n (L :: Ls) s rank →
      scheme.Settled P made n (new ++ Ls) s rank := fun scheme rank hs =>
    { hs with
      outside := fun e he v hv X hX henc => by
        obtain ⟨Y, hY, henc⟩ := encloses_split hsplit ⟨X, hX, henc⟩
        exact hs.outside e he v hv Y hY henc
      clear := fun q hq => (hs.clear q hq).split hsplit }
  refine { h with
    stacked := hsplit.stacked h.stacked
    isolated := fun X hX v hv => ?_
    schemes := fun X hX e he => ?_ }
  · obtain ⟨Y, hY, hv⟩ := encloses_split hsplit ⟨X, hX, hv⟩
    exact h.isolated Y hY v hv
  · rcases List.mem_append.mp hX with hX | hX
    · rcases hsplit.scheme hX he with he | ⟨hheader, hquant, hrest, hnil, rfl⟩
      · exact (hold _ _ (h.schemes L (by simp) e he)).mono (hsplit.rank_le hX)
      · exact h.settled_of_header hsplit hrest hnil hheader hquant
    · exact hold _ _ (h.schemes X (by simp [hX]) e he)

end Tiered

/-! ## Demands that are discharged -/

section Discharge

variable {k : Rank} {ctx : Context} {c : Constraint}

theorem Clear.avoids (h : Clear ({ rank := k, context := ctx, rest := c } :: Ls) s q) :
    Solver.Avoids s ctx c q :=
  ⟨fun v hv => h.mentions _ List.mem_cons_self v (.inr hv), h.schemes _ List.mem_cons_self⟩

theorem Clear.discharge (h : Clear ({ rank := k, context := ctx, rest := c } :: Ls) s q)
    (hd : Solver.Discharges ctx c k s s') : Spares q s s' ∧ Clear Ls s' q := by
  have hspares := hd.spares q h.lt h.root h.avoids
  refine ⟨hspares, hspares.root, hspares.kind_eq h.free, fun L hL v hv => ?_,
    fun L hL e he t ht v hv hr => Classical.byContradiction fun hq => ?_⟩
  · exact hspares.apart v (h.mentions L (by simp [hL]) v hv)
  · refine hspares.apart v (fun hr => hq ?_) hr
    exact h.schemes L (by simp [hL]) e he t ht v hv hr

namespace Tiered

variable (h : Tiered P made n ({ rank := k, context := ctx, rest := c } :: Ls) s madeAt)
  (hd : Solver.Discharges ctx c k s s')

include h

theorem avoids_of_encloses (hL : L ∈ Ls) (hv : L.Encloses made v) : Solver.Avoids s ctx c v := by
  have hiso := h.isolated L (by simp [hL]) v hv
  refine ⟨fun w hw hr => ?_, fun e he t ht w hw hr => ?_⟩
  · obtain rfl := hiso.only w hr
    have hle := ((List.pairwise_cons.mp h.stacked.follows).1 L hL).apart w (.inr hw) hv.1
    exact absurd hle hv.2.not_ge
  · obtain rfl := hiso.only w hr
    exact absurd hv ((h.schemes _ (.head _) e he).outside t ht w hw L (by simp [hL]))

include hd

theorem sunk_of_discharge : s'.Sunk fun v => if v < s.size then madeAt v else k := by
  intro v r j hv hr hj
  change j ≤ if v < s.size then madeAt v else k
  split
  · rename_i hlt
    exact (hd.within (fun _ => False) _ v (by simp) hlt (h.sunk.within hlt) r j hr hj).resolve_left id
  · rename_i hge
    exact (hd.new v (Nat.not_lt.mp hge) hv r j hr hj).resolve_left id

theorem settled_of_discharge {rank : Rank} {scheme : Scheme}
    (hs : scheme.Settled P made n ({ rank := k, context := ctx, rest := c } :: Ls) s rank) :
    scheme.Settled P made n Ls s' rank := by
  refine ⟨hs.types, hs.lt, fun e he v hv L hL => hs.outside e he v hv L (by simp [hL]),
    fun e he v hv => ?_, fun q hq => ((hs.clear q hq).discharge hd).2⟩
  refine hd.within _ rank v (fun q hq => ?_) ((hs.lt e he v hv).trans_le h.size_le)
    (hs.reached e he v hv)
  exact ⟨(hs.clear q hq).lt, (hs.clear q hq).root, (hs.clear q hq).avoids⟩

theorem discharge : Tiered P made n Ls s' fun v => if v < s.size then madeAt v else k := by
  refine ⟨hd.formed, h.size_le.trans hd.size_le, fun v hv => ?_,
    ⟨fun L hL => h.stacked.orderly L (by simp [hL]), (List.pairwise_cons.mp h.stacked.follows).2⟩,
    h.sunk_of_discharge hd, fun L hL v hv => ?_, fun L hL e he => ?_⟩
  · rw [if_pos (hv.trans_le h.size_le)]
    exact h.agrees v hv
  · have hiso := h.isolated L (by simp [hL]) v hv
    exact hiso.spares (hd.spares v hiso.lt hiso.root (h.avoids_of_encloses hL hv))
  · exact h.settled_of_discharge hd (h.schemes L (by simp [hL]) e he)

omit h hd

theorem mentions_lt (h : Tiered P made n (L :: Ls) s madeAt) (hv : L.rest.Mentions v) :
    v < s.size :=
  ((h.stacked.orderly L List.mem_cons_self).lt v (.inr hv)).trans_le h.size_le

variable {span : Span}

theorem equal_fits {expected actual : Ty} (h : Tiered P made n
      ({ rank := k, context := ctx, rest := .equal expected actual span } :: Ls) s madeAt)
    (hP : ∀ t, P t → t.Below s.size → t.Fits s.size) :
    P expected ∧ P actual ∧ (Call.types expected actual).Fits s.size := by
  have htypes := (h.stacked.orderly _ (.head _)).types
  cases htypes with
  | equal he ha =>
    exact ⟨he, ha, hP _ he fun v hv => h.mentions_lt (.expected hv),
      hP _ ha fun v hv => h.mentions_lt (.actual hv)⟩

theorem instantiates {fuel : Nat} {st st' : Solver} {name : String} {ty : Ty} (h : Tiered P made n
      ({ rank := st.rank, context := ctx, rest := .instanceOf name ty span } :: Ls) st.store madeAt)
    (hP : ∀ t, P t → t.Below st.store.size → t.Fits st.store.size)
    (hrun : st.equateInstance fuel ctx name ty span = .done () st') (herr : st'.errors = []) :
    ∃ scheme u u' c,
      Solver.Instantiates fuel ctx name ty st.rank st.store st'.store scheme u u' c ∧
      P ty ∧ P u := by
  have htypes := (h.stacked.orderly _ (.head _)).types
  cases htypes with
  | instanceOf ht =>
    have hctx : ∀ scheme, Assoc.get? ctx name = some scheme → ∀ e ∈ scheme.header,
        P e.2 ∧ e.2.Fits st.store.size := by
      intro scheme hscheme e he
      have hs := h.schemes _ (.head _) _ (Assoc.mem_of_get? hscheme)
      exact ⟨hs.types e he, hP _ (hs.types e he) fun v hv =>
        (hs.lt e he v hv).trans_le h.size_le⟩
    obtain ⟨scheme, u, u', c, hinst⟩ := Solver.instantiates_of_equateInstance hrun herr h.formed
      (hP _ ht fun v hv => h.mentions_lt (.instanceOf hv))
      fun scheme hscheme e he => (hctx scheme hscheme e he).2
    exact ⟨scheme, u, u', c, hinst, ht,
      (hctx scheme hinst.found _ (Assoc.mem_of_get? hinst.typeOf)).1⟩

theorem within_made (h : Tiered P made n Ls s madeAt) (hv : v < n) (hle : made v ≤ k) :
    s.Within (fun _ => False) k v := by
  refine (h.sunk.within (hv.trans_le h.size_le)).mono ?_
  rw [h.agrees v hv]
  exact hle

theorem discharges_equal {fuel : Nat} {expected actual : Ty} (h : Tiered P made n
      ({ rank := k, context := ctx, rest := .equal expected actual span } :: Ls) s madeAt)
    (hs : s.WellFormed) (hfits : (Call.types expected actual).Fits s.size)
    (hrun : Runs .tight fuel (.types expected actual) s (.unified s')) :
    Solver.Discharges ctx (.equal expected actual span) k s s' := by
  have hord := h.stacked.orderly _ (.head _)
  cases hord.inScope with
  | equal he ha =>
    refine Solver.discharges_of_tight hrun hs hfits fun v hv => ?_
    rcases hv with hv | hv
    · exact h.within_made (hord.lt v (.inr (.expected hv))) (he v hv)
    · exact h.within_made (hord.lt v (.inr (.actual hv))) (ha v hv)

theorem discharges_instanceOf {fuel : Nat} {name : String} {ty u u' : Ty} {scheme : Scheme}
    {c : Copying} (h : Tiered P made n
      ({ rank := k, context := ctx, rest := .instanceOf name ty span } :: Ls) s madeAt)
    (hs : s.WellFormed) (hh : s.Healthy)
    (hinst : Solver.Instantiates fuel ctx name ty k s s' scheme u u' c)
    (hrows : s.ExtensionRows u) (hrun : Runs .tight fuel (.types ty u') c.store (.unified s')) :
    Solver.Discharges ctx (.instanceOf name ty span) k s s' := by
  have hord := h.stacked.orderly _ (.head _)
  have hsettled := h.schemes _ (.head _) _ (Assoc.mem_of_get? hinst.found)
  cases hord.inScope with
  | instanceOf ht =>
    refine hinst.discharges_of_tight hrun hs hh hrows (fun v hv => ?_)
      (hsettled.reached _ (Assoc.mem_of_get? hinst.typeOf))
    exact h.within_made (hord.lt v (.inr (.instanceOf hv))) (ht v hv)

end Tiered
end Discharge

/-! ## Steps and runs -/

namespace Moment

def Tiered (P : Ty → Prop) (made : Var → Rank) (n : Nat) (m : Moment) : Prop :=
  TypeSolver.Tiered P made n m.layers m.state.store m.madeAt

def Layered (made : Var → Rank) (n : Nat) (m : Moment) : Prop :=
  TypeSolver.Layered made n m.layers m.state.store m.madeAt

variable {fuel : Nat} {m m' : Moment}

/-- Between the moments the first layer was taken up, or its demand was discharged. -/
inductive Advances (m m' : Moment) : Prop where
  | idle : Relinked m.state.store m'.state.store → m'.madeAt = m.madeAt → m'.layers = m.layers →
      Advances m m'
  | split {L : Layer} {Ls new : List Layer} : Relinked m.state.store m'.state.store →
      m'.madeAt = m.madeAt → m.layers = L :: Ls → m'.layers = new ++ Ls →
      L.Splits m.state.store new → Advances m m'
  | demand {ctx : Context} {c : Constraint} :
      m.layers = { rank := m.state.rank, context := ctx, rest := c } :: m'.layers →
      m'.madeAt = m.noted → Solver.Discharges ctx c m.state.rank m.state.store m'.state.store →
      Advances m m'

theorem Advances.tiered (h : Advances m m') (hm : m.Tiered P made n) : m'.Tiered P made n := by
  have hl := hm.formed.forest.linksEnd
  cases h with
  | idle hs hmade heq =>
    rw [Tiered, hmade, heq]
    exact hm.relinked hs hl
  | split hs hmade heq hnew hsplit =>
    rw [Tiered, heq] at hm
    rw [Tiered, hmade, hnew]
    exact (hm.split hsplit).relinked hs hl
  | demand heq hmade hd =>
    rw [Tiered, heq] at hm
    rw [Tiered, hmade]
    exact hm.discharge hd

theorem Advances.clear (h : Advances m m') (hl : m.state.store.LinksEnd)
    (hq : Clear m.layers m.state.store q) :
    Spares q m.state.store m'.state.store ∧ Clear m'.layers m'.state.store q := by
  cases h with
  | idle hs _ heq =>
    rw [heq]
    exact ⟨.of_relinked hs hl hq.root, hq.relinked hs hl⟩
  | split hs _ heq hnew hsplit =>
    rw [heq] at hq
    rw [hnew]
    exact ⟨.of_relinked hs hl hq.root, (hq.split hsplit).relinked hs hl⟩
  | demand heq _ hd =>
    rw [heq] at hq
    exact hq.discharge hd

theorem Advances.aliases (h : Advances m m') :
    m'.state.store.aliases = m.state.store.aliases := by
  cases h with
  | idle hs => exact hs.aliases
  | split hs => exact hs.aliases
  | demand _ _ hd => exact hd.aliases

theorem Step.advances (h : Step fuel m m') (hm : m.Layered made n) (herr : m'.state.errors = []) :
    Advances m m' ∧ Refines m.state.store m'.state.store := by
  have hl := hm.formed.forest.linksEnd
  rcases h.layers_cases hl with ⟨hs, hmade, heq | ⟨L, Ls, new, heq, hnew, hsplit⟩⟩ |
    ⟨ctx, c, ws, _, hlayers, hmade, hcases⟩
  · exact ⟨.idle hs hmade heq, .of_relinked hs hl hm.firstOrder⟩
  · exact ⟨.split hs hmade heq hnew hsplit, .of_relinked hs hl hm.firstOrder⟩
  · suffices Refines m.state.store m'.state.store ∧
        Solver.Discharges ctx c m.state.rank m.state.store m'.state.store from
      ⟨.demand hlayers hmade this.2, this.1⟩
    rw [Layered, hlayers] at hm
    have hs := hm.firstOrder
    rcases hcases with ⟨expected, actual, span, rfl, hrun⟩ | ⟨name, ty, span, rfl, hrun⟩
    · obtain ⟨he, ha, hfits⟩ := hm.equal_fits fun t ht => ht.fits
      have hruns := Solver.runs_of_equate hrun herr
      exact ⟨hruns.refines hs ⟨he, ha⟩ hfits,
        hm.discharges_equal hs.toWellFormed hfits (hruns.tight hs ⟨he, ha⟩ hfits)⟩
    · obtain ⟨_, u, u', _, h, ht, hu⟩ := hm.instantiates (fun t ht => ht.fits) hrun herr
      have hfirst := h.firstOrder hs ht hu
      have hcs := refines_of_extends h.copies hs
      exact ⟨hcs.trans (h.runs.refines hcs.firstOrder hfirst h.fits),
        hm.discharges_instanceOf hs.toWellFormed hs.healthy h (hs.extensionRows hu)
          (h.runs.tight hcs.firstOrder hfirst h.fits)⟩

theorem Step.layered (h : Step fuel m m') (hm : m.Layered made n) (herr : m'.state.errors = []) :
    m'.Layered made n := by
  obtain ⟨hadv, hrefines⟩ := h.advances hm herr
  refine ⟨?_, hrefines.firstOrder⟩
  rw [hadv.aliases]
  exact hadv.tiered hm.toTiered

theorem Step.refines (h : Step fuel m m') (hm : m.Layered made n) (herr : m'.state.errors = []) :
    Refines m.state.store m'.state.store := (h.advances hm herr).2

theorem Step.clear (h : Step fuel m m') (hm : m.Layered made n) (herr : m'.state.errors = [])
    (hq : Clear m.layers m.state.store q) :
    Spares q m.state.store m'.state.store ∧ Clear m'.layers m'.state.store q :=
  (h.advances hm herr).1.clear hm.formed.forest.linksEnd hq

variable (h : Steps fuel m m')

include h

theorem Steps.errors_eq_nil (herr : m'.state.errors = []) :
    m.state.errors = [] := List.prefix_nil.mp (herr ▸ h.errors)

theorem Steps.layered (hm : m.Layered made n) (herr : m'.state.errors = []) :
    m'.Layered made n := by
  induction h with
  | refl => exact hm
  | tail _ hstep ih => exact hstep.layered (ih (Steps.errors_eq_nil (.single hstep) herr)) herr

theorem Steps.refines (hm : m.Layered made n) (herr : m'.state.errors = []) :
    Refines m.state.store m'.state.store := by
  induction h with
  | refl => exact .refl hm.firstOrder
  | tail hsteps hstep ih =>
    have hnil := Steps.errors_eq_nil (.single hstep) herr
    exact (ih hnil).trans (hstep.refines (Steps.layered hsteps hm hnil) herr)

theorem Steps.clear (hm : m.Layered made n) (herr : m'.state.errors = [])
    (hq : Clear m.layers m.state.store q) :
    Spares q m.state.store m'.state.store ∧ Clear m'.layers m'.state.store q := by
  induction h with
  | refl => exact ⟨.refl hq.root, hq⟩
  | tail hsteps hstep ih =>
    have hnil := Steps.errors_eq_nil (.single hstep) herr
    obtain ⟨hspares, hclear⟩ := ih hnil
    obtain ⟨hspares', hclear'⟩ := hstep.clear (Steps.layered hsteps hm hnil) herr hclear
    exact ⟨hspares.trans hspares', hclear'⟩

end Moment
end TypeSolver
