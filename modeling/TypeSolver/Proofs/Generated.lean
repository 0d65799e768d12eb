import TypeSolver.Proofs.Scopes
import TypeSolver.Proofs.Bindings
import TypeSolver.Proofs.Expansion

/-!
# TypeSolver.Proofs.Generated

What the walk over a program makes. It adds unbound variables to the store and returns a constraint
that is `Sound` over them: scoped at the rank of the walk, and about types with a given property.

The property may depend on where variables stand, in the place of a type or of the extension of a
record; `Admits` says what it has to allow. The walk decides for each variable that it makes where
it stands (`Makes`).
-/

namespace TypeSolver

/-! ## Programs without records -/

mutual

def Pattern.plain : Pattern → Bool
  | ⟨_, form⟩ => form.plain

def PatternForm.plain : PatternForm → Bool
  | .wildcard => true
  | .var _ => true
  | .literal _ => true
  | .ctor _ args => plainPatterns args
  | .record _ => false
  | .named inner _ => inner.plain

def plainPatterns : List Pattern → Bool
  | [] => true
  | p :: ps => p.plain && plainPatterns ps

end

mutual

def Expr.plain : Expr → Bool
  | ⟨_, _, form⟩ => form.plain

def ExprForm.plain : ExprForm → Bool
  | .literal _ => true
  | .var _ => true
  | .lambda params body => plainPatterns params && body.plain
  | .apply func args => func.plain && plainExprs args
  | .letIn defs body => plainDefs defs && body.plain
  | .case scrutinee branches => scrutinee.plain && plainBranches branches
  | .ite cond onTrue onFalse => cond.plain && onTrue.plain && onFalse.plain
  | .list items => plainExprs items
  | .record _ => false
  | .access _ _ => false
  | .update _ _ => false

def plainExprs : List Expr → Bool
  | [] => true
  | e :: es => e.plain && plainExprs es

def plainBranches : List Branch → Bool
  | [] => true
  | ⟨p, body, _⟩ :: bs => p.plain && body.plain && plainBranches bs

def plainDefs : List Def → Bool
  | [] => true
  | ⟨_, params, body, _⟩ :: ds => plainPatterns params && body.plain && plainDefs ds

end

def Program.plain (p : Program) : Bool := p.groups.all fun g => plainDefs g.defs

/-! ## Stores in which nothing was bound yet -/

/-- Where a variable stands. -/
inductive Place where
  | type
  | row
deriving DecidableEq

namespace Store

/-- All variables are unbound and stand for themselves. -/
structure Untouched (s : Store) : Prop where
  forest : s.Forest
  root : ∀ v, s.root v = v
  free : ∀ v, v < s.size → s.kind v = .free

theorem untouched_empty (table : AliasTable) : ({ aliases := table } : Store).Untouched :=
  ⟨forest_empty table true, fun v => (Forest.root_of_size_le (Nat.zero_le v)).1,
    fun v hv => absurd hv (Nat.not_lt_zero v)⟩

def MadeAt (s : Store) (made : Var → Rank) : Prop := ∀ v, v < s.size → s.rank? v = some (made v)

/-- The store `s'` has all variables of `s` and some more, and when the new ones stand where they
are meant to stand, `Q` holds. -/
structure Makes (s s' : Store) (Q : (Var → Rank) → (Var → Place) → Prop) : Prop where
  untouched : s'.Untouched
  aliases : s'.aliases = s.aliases
  size_le : s.size ≤ s'.size
  content : ∀ v, v < s.size → s'.content v = s.content v
  places : ∃ meant : Var → Place, ∀ place : Var → Place,
    (∀ v, s.size ≤ v → v < s'.size → place v = meant v) → ∀ made, s'.MadeAt made → Q made place

namespace Makes

variable {s s' s'' : Store} {Q Q' : (Var → Rank) → (Var → Place) → Prop}

theorem refl (hs : s.Untouched) (h : ∀ made place, Q made place) : Makes s s Q :=
  ⟨hs, rfl, le_rfl, fun _ _ => rfl, fun _ => .type, fun place _ made _ => h made place⟩

theorem mono (h : Makes s s' Q) (hQ : ∀ made place, Q made place → Q' made place) :
    Makes s s' Q' := by
  obtain ⟨meant, hmeant⟩ := h.places
  exact ⟨h.untouched, h.aliases, h.size_le, h.content, meant,
    fun place hp made hm => hQ made place (hmeant place hp made hm)⟩

theorem madeAt (h : Makes s s' Q) {made : Var → Rank} (hm : s'.MadeAt made) : s.MadeAt made :=
  fun v hv => by rw [rank?, ← h.content v hv]; exact hm v (hv.trans_le h.size_le)

theorem and (h : Makes s s' Q) (h' : Makes s' s'' Q') :
    Makes s s'' fun made place => Q made place ∧ Q' made place := by
  obtain ⟨meant, hmeant⟩ := h.places
  obtain ⟨meant', hmeant'⟩ := h'.places
  refine ⟨h'.untouched, h'.aliases.trans h.aliases, h.size_le.trans h'.size_le, fun v hv => ?_,
    fun v => if v < s'.size then meant v else meant' v, fun place hp made hm => ⟨?_, ?_⟩⟩
  · rw [h'.content v (hv.trans_le h.size_le), h.content v hv]
  · refine hmeant place (fun v hv hv' => ?_) made (h'.madeAt hm)
    exact (hp v hv (hv'.trans_le h'.size_le)).trans (if_pos hv')
  · refine hmeant' place (fun v hv hv' => ?_) made hm
    exact (hp v (h.size_le.trans hv) hv').trans (if_neg (Nat.not_lt.mpr hv))

end Makes

theorem makes_fresh {s : Store} (hs : s.Untouched) (rank : Rank) (hint : Option String)
    (p : Place) : Makes s (s.fresh rank hint).2 fun made place =>
      made s.size = rank ∧ place s.size = p := by
  obtain ⟨hf, hr, hc⟩ := fresh_view hs.forest rank hint
  refine ⟨⟨hf, fun v => (hr v).trans (hs.root v), fun v hv => ?_⟩, rfl, ?_, fun v hv => ?_,
    fun _ => p, fun place hp made hm => ⟨?_, hp _ le_rfl ?_⟩⟩
  · rw [kind_eq_free, hc]
    split
    · exact ⟨rank, hint, rfl⟩
    · rename_i hne
      rw [fresh_size] at hv
      exact kind_eq_free.mp (hs.free v (Nat.lt_of_le_of_ne (Nat.le_of_lt_succ hv) hne))
  · rw [fresh_size]; exact Nat.le_succ _
  · rw [hc, if_neg (Nat.ne_of_lt hv)]
  · have hrank := hm s.size (by rw [fresh_size]; exact Nat.lt_succ_self _)
    rw [rank?, hc, if_pos rfl] at hrank
    exact (Option.some.inj hrank).symm
  · rw [fresh_size]; exact Nat.lt_succ_self _

theorem rank?_fresh {s : Store} (h : s.Forest) (rank : Rank) (hint : Option String) {v : Var}
    (hv : s.size ≤ v) (hv' : v < (s.fresh rank hint).2.size) :
    (s.fresh rank hint).2.rank? v = some rank := by
  obtain rfl : v = s.size := Nat.le_antisymm (Nat.le_of_lt_succ (by rwa [fresh_size] at hv')) hv
  rw [rank?, (fresh_view h rank hint).2.2, if_pos rfl]

end Store

/-! ## What types are made -/

/-- The signatures that an environment gives to names. -/
def Environment.Offers (env : Environment) (sig : Signature) : Prop :=
  (∃ name c, (name, c) ∈ env.constructors ∧ sig = c.signature) ∨
    ∃ name, (name, sig) ∈ env.values

/-- The property `P` of types, given where variables stand, allows for all types that the walk
makes; record types only if `records`. -/
structure Admits (env : Environment) (records : Prop) (P : (Var → Place) → Ty → Prop) : Prop where
  var : ∀ {place v}, place v = .type → P place (.var v)
  func : ∀ {place a b}, P place (.func a b) ↔ P place a ∧ P place b
  literal : ∀ {place} l, P place (Generate.literalType l)
  list : ∀ {place t}, P place t → P place (.list t)
  record : records → ∀ {place fields ext}, Assoc.Sorted fields → (∀ f ∈ fields, P place f.2) →
    (∀ v, ext = some v → place v = .row) → P place (.record fields ext)
  signature : ∀ {sig}, env.Offers sig → ∃ meant : String → Place, ∀ place σ t,
    (∀ x u, Assoc.get? σ x = some u → ∃ v, u = .var v ∧ place v = meant x) →
    sig.toTy σ = .ok t → P place t

theorem Admits.any (env : Environment) : Admits env True fun _ _ => True where
  var _ := .intro
  func := by simp
  literal _ := .intro
  list _ := .intro
  record _ _ _ _ _ _ _ := .intro
  signature _ := ⟨fun _ => .type, fun _ _ _ _ _ => .intro⟩

theorem mem_vars_curried {ts : List Ty} {t : Ty} {v : Var} :
    v ∈ (Ty.curried ts t).vars ↔ (∃ u ∈ ts, v ∈ u.vars) ∨ v ∈ t.vars := by
  induction ts with
  | nil => simp [Ty.curried]
  | cons u ts ih =>
    show v ∈ (Ty.func u (Ty.curried ts t)).vars ↔ _
    simp [ih, or_assoc]

section Walk

variable {env : Environment} {records : Prop} {P : (Var → Place) → Ty → Prop}
  (hP : Admits env records P)

include hP

variable {place : Var → Place} {ts : List Ty} {V : Var → Prop} {fields : List (String × Ty)}

theorem Admits.curried {t : Ty} : P place (.curried ts t) ↔ (∀ u ∈ ts, P place u) ∧ P place t := by
  induction ts with
  | nil => simp [Ty.curried]
  | cons u ts ih =>
    show P place (.func u (.curried ts t)) ↔ _
    rw [hP.func, ih]
    simp [and_assoc]

theorem Admits.within_curried {t : Ty} (hts : ∀ u ∈ ts, u.Within (P place) V)
    (ht : t.Within (P place) V) : (Ty.curried ts t).Within (P place) V := by
  refine ⟨hP.curried.mpr ⟨fun u hu => (hts u hu).1, ht.1⟩, fun v hv => ?_⟩
  rcases mem_vars_curried.mp hv with ⟨u, hu, hv⟩ | hv
  · exact (hts u hu).2 v hv
  · exact ht.2 v hv

theorem Admits.within_var {v : Var} (hv : place v = .type) (hV : V v) :
    (Ty.var v).Within (P place) V :=
  ⟨hP.var hv, fun w hw => by rw [Ty.mem_vars_var.mp hw]; exact hV⟩

theorem Admits.within_vars {vars : List Var} (h : ∀ v ∈ vars, place v = .type ∧ V v) :
    ∀ t ∈ vars.map Ty.var, t.Within (P place) V := by
  intro t ht
  obtain ⟨v, hv, rfl⟩ := List.mem_map.mp ht
  exact hP.within_var (h v hv).1 (h v hv).2

theorem Admits.within_closed (hrecords : records) (hs : Assoc.Sorted fields)
    (hfields : ∀ e ∈ fields, e.2.Within (P place) V) :
    (Ty.record fields none).Within (P place) V := by
  refine ⟨hP.record hrecords hs (fun e he => (hfields e he).1) nofun, fun v hv => ?_⟩
  obtain ⟨e, he, hv⟩ := (Ty.mem_vars_record.mp hv).resolve_right nofun
  exact (hfields e he).2 v hv

theorem Admits.within_record (hrecords : records) (hs : Assoc.Sorted fields)
    (hfields : ∀ e ∈ fields, e.2.Within (P place) V) {ext : Var} (hplace : place ext = .row)
    (hext : V ext) : (Ty.record fields (some ext)).Within (P place) V := by
  refine ⟨hP.record hrecords hs (fun e he => (hfields e he).1) ?_, fun v hv => ?_⟩
  · rintro v ⟨⟩
    exact hplace
  · rcases Ty.mem_vars_record.mp hv with ⟨e, he, hv⟩ | hv
    · exact (hfields e he).2 v hv
    · cases hv
      exact hext

end Walk

namespace Generate

/-- A part of the walk that went from `g` to `g'`, back at its rank. It made variables of this rank
and of ranks further inside. -/
structure Makes (g g' : Generator) (Q : (Var → Rank) → (Var → Place) → Prop) : Prop
    extends Store.Makes g.store g'.store Q where
  rank : g'.rank = g.rank
  deep : ∀ v, g.store.size ≤ v → v < g'.store.size → ∃ k, g'.store.rank? v = some k ∧ g.rank ≤ k

variable {α β : Type} {g g' g'' : Generator}

variable {Q Q' : (Var → Rank) → (Var → Place) → Prop} {m : Generate α} {k rank : Rank} {n : Nat}
  {σ : List (String × Ty)} {names : List String} {vars : List Var} {s s' : Store}

theorem Makes.refl (hg : g.store.Untouched) (h : ∀ made place, Q made place) : Makes g g Q :=
  ⟨.refl hg h, rfl, fun _ hv hv' => absurd hv' (Nat.not_lt.mpr hv)⟩

theorem Makes.and (h : Makes g g' Q) (h' : Makes g' g'' Q') :
    Makes g g'' fun made place => Q made place ∧ Q' made place := by
  refine ⟨h.toMakes.and h'.toMakes, h'.rank.trans h.rank, fun v hv hv' => ?_⟩
  rcases Nat.lt_or_ge v g'.store.size with hlt | hge
  · rw [Store.rank?, h'.content v hlt]
    exact h.deep v hv hlt
  · rw [← h.rank]
    exact h'.deep v hge hv'

theorem Makes.mono (h : Makes g g' Q) (hQ : ∀ made place, Q made place → Q' made place) :
    Makes g g' Q' :=
  ⟨h.toMakes.mono hQ, h.rank, h.deep⟩

theorem bind_eq_ok {f : α → Generate β} {b : β} (h : (m >>= f) g = .ok b g'') :
    ∃ a g', m g = .ok a g' ∧ f a g' = .ok b g'' := by
  replace h : EStateM.bind m f g = .ok b g'' := h
  rw [EStateM.bind.eq_def] at h
  split at h
  · rename_i a g' hm; exact ⟨a, g', hm, h⟩
  · cases h

theorem pure_eq_ok {a b : α} (h : (pure a : Generate α) g = .ok b g') : a = b ∧ g = g' := by
  cases h; exact ⟨rfl, rfl⟩

theorem nested_eq_ok {a : α} (h : nested m g = .ok a g') :
    ∃ g1, m { g with rank := g.rank + 1 } = .ok a g1 ∧ g' = { g1 with rank := g1.rank - 1 } := by
  rw [nested] at h
  split at h
  · rename_i a' g1 hg1; cases h; exact ⟨g1, hg1, rfl⟩
  · cases h

/-- What is made one rank deeper is made all the same. -/
theorem Makes.nested (h : Makes { g with rank := g.rank + 1 } g' Q) :
    Makes g { g' with rank := g'.rank - 1 } Q := by
  refine ⟨h.toMakes, by show g'.rank - 1 = g.rank; rw [h.rank, Nat.add_sub_cancel],
    fun v hv hv' => ?_⟩
  obtain ⟨k, hk, hle⟩ := h.deep v hv hv'
  exact ⟨k, hk, Nat.le_of_succ_le hle⟩

/-! ## Parts of the walk -/

/-- At rank `k`, in a store of `n` variables, the part of the walk makes variables so that `Q` holds
of its result and of the number of variables that there are then. -/
def Produces (k : Rank) (n : Nat) (m : Generate α)
    (Q : α → Nat → (Var → Rank) → (Var → Place) → Prop) : Prop :=
  ∀ ⦃g a g'⦄, m g = .ok a g' → g.store.Untouched → g.rank = k → g.store.size = n →
    Makes g g' (Q a g'.store.size)

namespace Produces

variable {k : Rank} {n : Nat} {m : Generate α} {f : α → Generate β}
  {Q Q' : α → Nat → (Var → Rank) → (Var → Place) → Prop}
  {R : β → Nat → (Var → Rank) → (Var → Place) → Prop}

theorem pure {a : α} (h : ∀ made place, Q a n made place) : Produces k n (pure a) Q := by
  rintro g _ _ hrun hg rfl rfl
  obtain ⟨rfl, rfl⟩ := pure_eq_ok hrun
  exact .refl hg h

theorem bind (hm : Produces k n m Q) (hf : ∀ a n1, n ≤ n1 → Produces k n1 (f a)
    fun b n' made place => Q a n1 made place → R b n' made place) : Produces k n (m >>= f) R := by
  rintro g b g'' hrun hg rfl rfl
  obtain ⟨a, g1, ha, hb⟩ := bind_eq_ok hrun
  have hfirst := hm ha hg rfl rfl
  have hrest := hf a _ hfirst.size_le hb hfirst.untouched hfirst.rank rfl
  exact (hfirst.and hrest).mono fun made place h => h.2 h.1

theorem mono (h : Produces k n m Q)
    (hQ : ∀ a n' made place, n ≤ n' → Q a n' made place → Q' a n' made place) :
    Produces k n m Q' := by
  rintro g a g' hrun hg rfl rfl
  have hmakes := h hrun hg rfl rfl
  exact hmakes.mono fun made place => hQ a _ made place hmakes.size_le

theorem nested (h : Produces (k + 1) n m Q) : Produces k n (nested m) Q := by
  rintro g a g' hrun hg rfl rfl
  obtain ⟨g1, hm, rfl⟩ := nested_eq_ok hrun
  exact (h hm hg rfl rfl).nested

end Produces

/-- The variable was made at rank `k`, as one of those from `n` to `n'`, and stands at `p`. -/
def New (k : Rank) (n n' : Nat) (p : Place) (made : Var → Rank) (place : Var → Place) (v : Nat) :
    Prop :=
  n ≤ v ∧ v < n' ∧ made v = k ∧ place v = p

theorem fresh_produces (p : Place) :
    Produces k n fresh fun v n' made place => New k n n' p made place v := by
  rintro g _ _ ⟨⟩ hg rfl rfl
  have hlt : g.store.size < (g.store.fresh g.rank none).2.size := by
    rw [Store.fresh_size]; exact Nat.lt_succ_self _
  exact ⟨(Store.makes_fresh hg g.rank none p).mono fun made place h => ⟨le_rfl, hlt, h⟩, rfl,
    fun v hv hv' => ⟨g.rank, Store.rank?_fresh hg.forest g.rank none hv hv', le_rfl⟩⟩

theorem Produces.freshType {f : Ty → Generate β} {R : β → Nat → (Var → Rank) → (Var → Place) → Prop}
    (hf : ∀ v n1, n ≤ n1 → Produces k n1 (f (.var v)) fun b n' made place =>
      New k n n1 .type made place v → R b n' made place) : Produces k n (freshType >>= f) R := by
  exact (fresh_produces .type).bind hf

theorem freshVars_produces (len : Nat) : Produces k n (freshVars len) fun vs n' made place =>
      ∀ v ∈ vs, New k n n' .type made place v := by
  induction len generalizing n with
  | zero => exact .pure fun _ _ => nofun
  | succ len ih =>
    refine (fresh_produces .type).bind fun v n1 h1 => ih.bind fun vs n2 h2 =>
      .pure fun made place hvs hv w hw => ?_
    rcases List.mem_cons.mp hw with rfl | hw
    · exact ⟨hv.1, by have := hv.2.1; omega, hv.2.2⟩
    · exact ⟨h1.trans (hvs w hw).1, (hvs w hw).2⟩

/-! ## Signatures -/

theorem toTy_curried {sigs : List Signature} {sig : Signature} {ts : List Ty} {t : Ty}
    (hts : Signature.toTyList σ sigs = .ok ts) (ht : sig.toTy σ = .ok t) :
    (Signature.curried sigs sig).toTy σ = .ok (.curried ts t) := by
  have hall := Signature.toTyList_ok.mp hts
  clear hts
  induction hall with
  | nil => exact ht
  | cons he _ ih =>
    show (Signature.func _ (Signature.curried _ sig)).toTy σ = _
    rw [Signature.toTy, he, ih]
    rfl

theorem toTyList_vars {xs : List String} (h : ∀ x ∈ xs, ∃ t, Assoc.get? σ x = some t) :
    Signature.toTyList σ (xs.map .var) = .ok (xs.filterMap (Assoc.get? σ)) := by
  induction xs with
  | nil => rfl
  | cons x xs ih =>
    obtain ⟨t, ht⟩ := h x (by simp)
    rw [List.map_cons, Signature.toTyList, Signature.toTy, ht,
      ih fun y hy => h y (by simp [hy]), List.filterMap_cons, ht]

theorem exists_assignment (hlen : vars.length = names.length) {x : String} (hx : x ∈ names) :
    ∃ t, Assoc.get? (assignment names vars) x = some t := by
  cases hget : Assoc.get? (assignment names vars) x with
  | some t => exact ⟨t, rfl⟩
  | none =>
    refine absurd ?_ (Assoc.get?_eq_none_iff.mp hget)
    rw [Assoc.keys, assignment, List.map_reverse, List.map_fst_zip (by simp [hlen])]
    exact List.mem_reverse.mpr hx

theorem mem_of_assignment {x : String} {t : Ty}
    (h : Assoc.get? (assignment names vars) x = some t) :
    ∃ v, t = .var v ∧ (x, v) ∈ names.zip vars := by
  have hmem := Assoc.mem_of_get? h
  rw [assignment, List.mem_reverse, List.zip_map_right, List.mem_map] at hmem
  obtain ⟨⟨x', v⟩, hmem, heq⟩ := hmem
  cases heq
  exact ⟨v, rfl, hmem⟩

theorem freshNamed_cons {name : String} (h : s.freshNamed rank (name :: names) = (vars, s')) :
    ∃ vs, (s.fresh rank (some name)).2.freshNamed rank names = (vs, s') ∧ vars = s.size :: vs := by
  cases h
  exact ⟨_, rfl, rfl⟩

theorem makes_freshNamed (h : s.freshNamed rank names = (vars, s')) (hs : s.Untouched)
    (meant : String → Place) : vars.length = names.length ∧ (∀ v ∈ vars, s.size ≤ v ∧ v < s'.size) ∧
      Store.Makes s s' fun made place =>
        ∀ e ∈ names.zip vars, made e.2 = rank ∧ place e.2 = meant e.1 := by
  induction names generalizing s vars with
  | nil => cases h; exact ⟨rfl, nofun, .refl hs fun _ _ => nofun⟩
  | cons name names ih =>
    have hmakes := Store.makes_fresh hs rank (some name) (meant name)
    obtain ⟨vs, hrest, rfl⟩ := freshNamed_cons h
    obtain ⟨hlen, hrange, hmakes'⟩ := ih hrest hmakes.untouched
    have hlt : s.size < (s.fresh rank (some name)).2.size := by
      rw [Store.fresh_size]; exact Nat.lt_succ_self _
    refine ⟨by simp [hlen], fun v hv => ?_, (hmakes.and hmakes').mono fun made place ⟨h, h'⟩ e he => ?_⟩
    · rcases List.mem_cons.mp hv with rfl | hv
      · exact ⟨le_rfl, hlt.trans_le hmakes'.size_le⟩
      · exact ⟨hmakes.size_le.trans (hrange v hv).1, (hrange v hv).2⟩
    · rcases List.mem_cons.mp he with rfl | he
      · exact h
      · exact h' e he

theorem rank?_freshNamed (h : s.freshNamed rank names = (vars, s')) (hs : s.Untouched) {v : Var}
    (hv : s.size ≤ v) (hv' : v < s'.size) : s'.rank? v = some rank := by
  induction names generalizing s vars with
  | nil => cases h; exact absurd hv' (Nat.not_lt.mpr hv)
  | cons name names ih =>
    have hmakes := Store.makes_fresh hs rank (some name) .type
    obtain ⟨vs, hrest, rfl⟩ := freshNamed_cons h
    rcases Nat.lt_or_ge v (s.fresh rank (some name)).2.size with hlt | hge
    · obtain ⟨_, _, hmakes'⟩ := makes_freshNamed hrest hmakes.untouched fun _ => .type
      rw [Store.rank?, hmakes'.content v hlt]
      exact Store.rank?_fresh hs.forest rank (some name) hv hlt
    · exact ih hrest hmakes.untouched hge

theorem constructor_eq_ok {env : Environment} {name : String} {span : Span} {r : List Ty × Ty}
    {g g' : Generator} : constructor env name span g = .ok r g' ↔
      ∃ c args, Assoc.get? env.constructors name = some c ∧
        let made := g.store.freshNamed g.rank c.params
        let σ := assignment c.params made.1
        Signature.toTyList σ c.args = .ok args ∧
          r = (args, .app c.result (c.params.filterMap (Assoc.get? σ))) ∧
          g' = { g with store := made.2 } := by
  rw [constructor, Environment.instantiateConstructor]
  cases Assoc.get? env.constructors name with
  | none => simp
  | some c =>
    cases hargs : Signature.toTyList (assignment c.params (g.store.freshNamed g.rank c.params).1)
        c.args <;> simp [hargs, eq_comm]

section Walk

variable {env : Environment} {records : Prop} {P : (Var → Place) → Ty → Prop}
  (hP : Admits env records P)

include hP

theorem signature_makes {sig : Signature} (hsig : env.Offers sig)
    (h : s.freshNamed rank names = (vars, s')) (hs : s.Untouched) :
    Store.Makes s s' fun made place =>
      ∀ t, sig.toTy (assignment names vars) = .ok t → P place t ∧
        ∀ v ∈ t.vars, v ∈ vars ∧ s.size ≤ v ∧ v < s'.size ∧ made v = rank := by
  obtain ⟨meant, hmeant⟩ := hP.signature hsig
  obtain ⟨_, hrange, hmakes⟩ := makes_freshNamed h hs meant
  refine hmakes.mono fun made place hvars t ht => ⟨hmeant place _ t (fun x u hu => ?_) ht, ?_⟩
  · obtain ⟨v, rfl, hv⟩ := mem_of_assignment hu
    exact ⟨v, rfl, (hvars _ hv).2⟩
  · intro v hv
    obtain ⟨x, u, hu, hv⟩ := Signature.mem_vars_toTy ht hv
    obtain ⟨w, rfl, hw⟩ := mem_of_assignment hu
    obtain rfl := Ty.mem_vars_var.mp hv
    have hmem := (List.of_mem_zip hw).2
    exact ⟨hmem, (hrange v hmem).1, (hrange v hmem).2, (hvars _ hw).1⟩

theorem constructor_produces (name : String) (span : Span) :
    Produces k n (constructor env name span) fun r n' made place =>
      ∀ t, t ∈ r.1 ∨ t = r.2 → P place t ∧ ∀ v : Nat, v ∈ t.vars → n ≤ v ∧ v < n' ∧ made v = k := by
  rintro g ⟨params, result⟩ g' h hg rfl rfl
  obtain ⟨c, args, hget, hargs, heq, rfl⟩ := constructor_eq_ok.mp h
  cases heq
  cases hvars : g.store.freshNamed g.rank c.params with
  | mk vars s =>
    rw [hvars] at hargs
    obtain ⟨hlen, _, _⟩ := makes_freshNamed hvars hg fun _ => .type
    have hresult : c.resultSignature.toTy (assignment c.params vars) =
        .ok (.app c.result (c.params.filterMap (Assoc.get? (assignment c.params vars)))) := by
      rw [Constructor.resultSignature, Signature.toTy,
        toTyList_vars fun x hx => exists_assignment hlen hx]
    refine ⟨(signature_makes hP (.inl ⟨name, c, Assoc.mem_of_get? hget, rfl⟩) hvars hg).mono
      fun made place hsig t ht => ?_, rfl, fun v hv hv' =>
        ⟨g.rank, rank?_freshNamed hvars hg hv hv', le_rfl⟩⟩
    obtain ⟨hcurried, hrange⟩ := hsig _ (toTy_curried hargs hresult)
    obtain ⟨hparams, hres⟩ := hP.curried.mp hcurried
    rcases ht with ht | rfl
    · exact ⟨hparams t ht, fun v hv => (hrange v (mem_vars_curried.mpr (.inl ⟨t, ht, hv⟩))).2⟩
    · exact ⟨hres, fun v hv => (hrange v (mem_vars_curried.mpr (.inr hv))).2⟩

variable {made : Var → Rank} {place : Var → Place} {V : Var → Prop} {expected : Ty} {n' : Nat}
  {c : Constraint}

theorem within_fields {m : Nat} {W : Var → Prop}
    (hown : ∀ v : Nat, n ≤ v → v < m → made v ≤ k → W v) {types : List (String × Ty)}
    (h : ∀ e ∈ types, ∃ v, e.2 = .var v ∧ New k n m .type made place v) :
    ∀ e ∈ types, e.2.Within (P place) W := fun e he => by
  obtain ⟨v, hv, hle, hlt, hmade, hplace⟩ := h e he
  rw [hv]
  exact hP.within_var hplace (hown v hle hlt hmade.le)

/-! ## Patterns -/

omit hP in
theorem literalType_vars (l : Literal) : (literalType l).vars = [] := by cases l <;> rfl

theorem within_literal (l : Literal) : (literalType l).Within (P place) V :=
  ⟨hP.literal l, by rw [literalType_vars]; nofun⟩

omit hP in
def Binds (P : (Var → Place) → Ty → Prop) (expected : Ty) (k : Rank) (n : Nat) (f : Fragment)
    (n' : Nat) (made : Var → Rank) (place : Var → Place) : Prop :=
  ∀ V, (∀ v, V v → made v ≤ k) → expected.Within (P place) V → f.Sound (P place) made V k n n'

theorem fieldBindings_produces (names : List String) :
    Produces k n (fieldBindings names) fun fs n' made place =>
      ∀ V, Fragment.SoundAll (P place) made V k n n' fs := by
  induction names generalizing n with
  | nil => exact .pure fun _ _ _ => .nil
  | cons name names ih =>
    refine (fresh_produces .type).bind fun v n1 h1 => ih.bind fun fs n2 h2 =>
      .pure fun made place hfs hv V => ?_
    obtain ⟨hle, hlt, hmade, hplace⟩ := hv
    exact .cons h1 (.binding (hP.var hplace) hle hlt hmade.le .trivial) (hfs V)

omit hP in
theorem Binds.intro {f : Fragment} (h : ∀ W, (∀ v, W v → made v ≤ k) →
      (∀ v : Nat, n ≤ v → v < n' → made v ≤ k → W v) → expected.Within (P place) W →
      f.Sound (P place) made W k n n') : Binds P expected k n f n' made place := fun _ hV ht =>
  .of_around (h _ (fun _ hv => hv.le hV) (fun _ hle hlt hmade => .inr ⟨hle, hlt, hmade⟩)
    ⟨ht.1, fun v hv => .inl (ht.2 v hv)⟩)

set_option linter.unusedSectionVars false in
mutual

theorem pattern_produces : ∀ (p : Pattern), records ∨ p.plain = true →
    ∀ (expected : Ty) (k : Rank) (n : Nat), Produces k n (pattern env p expected)
      (Binds P expected k n)
  | ⟨span, form⟩, hplain, expected, k, n => by
    exact patternForm_produces span form hplain expected k n

theorem patternForm_produces (span : Span) : ∀ (p : PatternForm), records ∨ p.plain = true →
    ∀ (expected : Ty) (k : Rank) (n : Nat), Produces k n (patternForm env span p expected)
      (Binds P expected k n)
  | .wildcard, _, _, _, _ => by
    exact .pure fun _ _ _ _ _ => .empty
  | .var name, _, _, k, n => by
    refine (fresh_produces .type).bind fun v n1 h1 => .pure fun made place hv =>
      .intro fun W hW hown ht => ?_
    obtain ⟨hle, hlt, hmade, hplace⟩ := hv
    have hvar := hP.within_var hplace (hown v hle hlt hmade.le)
    exact .binding hvar.1 hle hlt hmade.le (.equal hW ht hvar)
  | .literal value, _, _, _, _ => by
    exact .pure fun made place V hV ht => .demand (.equal hV ht (within_literal hP value)) []
  | .ctor name args, hplain, expected, k, n => by
    refine (constructor_produces hP name span).bind fun r n1 h1 =>
      (freshVars_produces args.length).bind fun vars n2 h2 =>
      (patterns_produces args hplain (vars.map Ty.var) k n2).bind fun inner n3 h3 =>
      .pure fun made place hinner hvars hctor => .intro fun W hW hown ht => ?_
    have htypes : ∀ t, t ∈ r.1 ∨ t = r.2 → t.Within (P place) W := fun t ht =>
      ⟨(hctor t ht).1, fun v hv => by
        have hv := (hctor t ht).2 v hv
        exact hown v (by omega) (by omega) hv.2.2.le⟩
    have hargs := hP.within_vars fun v hv => by
      obtain ⟨hle, hlt, hmade, hplace⟩ := hvars v hv
      exact ⟨hplace, hown v (by omega) (by omega) hmade.le⟩
    have hresult := htypes r.2 (.inr rfl)
    have hhead : Constraint.SoundAll (P place) made W k n2 n2
        [.equal expected r.2 span,
          .equal (.curried (vars.map Ty.var) r.2) (.curried r.1 r.2) span] :=
      .cons le_rfl (.equal hW ht hresult) (.single le_rfl
        (.equal hW (hP.within_curried hargs hresult)
          (hP.within_curried (fun t ht => htypes t (.inl ht)) hresult)))
    exact ((Fragment.Sound.demand (hhead.all hW) vars).join hW le_rfl h3
      ((hinner W hW hargs).joinAll hW)).widen (h1.trans h2) le_rfl
  | .record fields, hplain, expected, k, n => by
    have hrecords : records := hplain.resolve_right (by simp [PatternForm.plain])
    refine (fresh_produces .row).bind fun ext n1 h1 => (fieldBindings_produces hP fields).bind
      fun fs n2 h2 => .pure fun made place hfs hext => .intro fun W hW hown ht => ?_
    obtain ⟨hle, hlt, hmade, hplace⟩ := hext
    have hall := (hfs W).joinAll hW
    have hrow : (Ty.record (Fragment.joinAll fs).env (some ext)).Within (P place) W :=
      hP.within_record hrecords (Fragment.sorted_joinAll fs) (fun e he => ⟨(hall.env e he).1,
        fun v hv => by
          obtain ⟨hle', hlt', hmade'⟩ := (hall.env e he).2 v hv
          exact hown v (h1.trans hle') hlt' hmade'⟩)
        hplace (hown ext hle (by omega) hmade.le)
    exact (Fragment.Sound.demand (.equal hW ht hrow) [ext]).join hW h1 h2 hall
  | .named inner name, hplain, expected, k, n => by
    refine (fresh_produces .type).bind fun v n1 h1 =>
      (pattern_produces inner hplain expected k n1).bind fun f n2 h2 =>
      .pure fun made place hinner hv => .intro fun W hW hown ht => ?_
    obtain ⟨hle, hlt, hmade, hplace⟩ := hv
    have hvar := hP.within_var hplace (hown v hle (by omega) hmade.le)
    exact Fragment.Sound.join hW h1 h2
      (.binding hvar.1 hle hlt hmade.le (.equal hW ht hvar)) (hinner W hW ht)

theorem patterns_produces : ∀ (ps : List Pattern), records ∨ plainPatterns ps = true →
    ∀ (ts : List Ty) (k : Rank) (n : Nat), Produces k n (patterns env ps ts)
      fun fs n' made place => ∀ V, (∀ v, V v → made v ≤ k) → (∀ t ∈ ts, t.Within (P place) V) →
        Fragment.SoundAll (P place) made V k n n' fs
  | [], _, ts, _, _ => by
    rw [patterns]
    · exact .pure fun _ _ _ _ _ => .nil
    · nofun
  | p :: ps, _, [], _, _ => by
    rw [patterns]
    · exact .pure fun _ _ _ _ _ => .nil
    · nofun
  | p :: ps, hplain, t :: ts, k, n => by
    rw [plainPatterns, Bool.and_eq_true] at hplain
    exact (pattern_produces p (hplain.imp_right And.left) t k n).bind fun f n1 h1 =>
      (patterns_produces ps (hplain.imp_right And.right) ts k n1).bind fun fs n2 h2 =>
      .pure fun made place hfs hf V hV hts => .cons h1 (hf V hV (hts t (by simp)))
        (hfs V hV fun u hu => hts u (by simp [hu]))

end

/-! ## Groups and functions -/

omit hP in
def Demands (P : (Var → Place) → Ty → Prop) (expected : Ty) (k : Rank) (n : Nat) (c : Constraint)
    (n' : Nat) (made : Var → Rank) (place : Var → Place) : Prop :=
  ∀ V, (∀ v, V v → made v ≤ k) → expected.Within (P place) V → c.Sound (P place) made V k n n'

omit hP in
theorem Demands.intro (h : ∀ W, (∀ v, W v → made v ≤ k) →
      (∀ v : Nat, n ≤ v → v < n' → made v ≤ k → W v) → expected.Within (P place) W →
      c.Sound (P place) made W k n n') : Demands P expected k n c n' made place := fun _ hV ht =>
  .of_around (h _ (fun _ hv => hv.le hV) (fun _ hle hlt hmade => .inr ⟨hle, hlt, hmade⟩)
    ⟨ht.1, fun v hv => .inl (ht.2 v hv)⟩)

theorem function_produces {params : List Pattern} {span : Span} {body : Ty → Generate Constraint}
    (hplain : records ∨ plainPatterns params = true)
    (hbody : ∀ (t : Ty) (k : Rank) (n : Nat), Produces k n (body t) (Demands P t k n)) (k : Rank)
    (n : Nat) : Produces k n (function env params span expected body) (Demands P expected k n) := by
  rw [function]
  split
  · exact hbody expected k n
  · refine (freshVars_produces params.length).bind fun vars n1 h1 => .freshType fun ret n2 h2 =>
      (patterns_produces hP params hplain (vars.map Ty.var) (k + 1) n2).nested.bind fun fs n3 h3 =>
      (hbody (.var ret) k n3).bind fun c n4 h4 => .pure fun made place hc hfs hret hvars =>
        .intro fun W hW hown ht => ?_
    have hargs := hP.within_vars fun v hv => by
      obtain ⟨hle, hlt, hmade, hplace⟩ := hvars v hv
      exact ⟨hplace, hown v hle (by omega) hmade.le⟩
    obtain ⟨hle, hlt, hmade, hplace⟩ := hret
    have hres := hP.within_var hplace (hown ret (by omega) (by omega) hmade.le)
    have hW' : ∀ v, W v → made v ≤ k + 1 := fun v hv => Nat.le_succ_of_le (hW v hv)
    have hdefs := (hfs W hW' hargs).joinAll hW'
    have hparts : Constraint.SoundAll (P place) made W k n2 n4
        [(Fragment.joinAll fs).toScheme.around c, .equal expected (.curried (vars.map Ty.var)
          (.var ret)) span] :=
      .cons (h3.trans h4) (.letIn hW h3 h4 hdefs.constraint (hc W hW hres) hdefs.env)
        (.single le_rfl (.equal hW ht (hP.within_curried hargs hres)))
    exact (hparts.all hW).widen (h1.trans h2) le_rfl

omit hP in
theorem sound_group {P : Ty → Prop} {n1 : Nat} {fs : List Fragment} (hV : ∀ v, V v → made v ≤ k)
    (hn : n ≤ n1) (hn' : n1 ≤ n') (hfs : Fragment.SoundAll P made V (k + 1) n n1 fs)
    (hc : c.Sound P made V k n1 n') : ((groupScheme fs).around c).Sound P made V k n n' := by
  have hall := hfs.joinAll fun v hv => Nat.le_succ_of_le (hV v hv)
  exact .letIn hV hn hn' (.recursive hall.constraint hall.env) hc hall.env

/-! ## Expressions -/

omit hP in
theorem fieldTypes_produces (fs : List Field) (types : List (String × Ty))
    (hs : Assoc.Sorted types) : Produces k n (fieldTypes fs types) fun types' n' made place =>
      Assoc.Sorted types' ∧ ∀ e ∈ types', e ∈ types ∨
        ∃ v, e.2 = .var v ∧ New k n n' .type made place v := by
  induction fs generalizing n types with
  | nil => exact .pure fun _ _ => ⟨hs, fun e he => .inl he⟩
  | cons f fs ih =>
    obtain ⟨name, value⟩ := f
    rw [fieldTypes]
    split
    · exact ih types hs
    · refine .freshType fun v n1 h1 => (ih _ (Assoc.sorted_insert hs name (.var v))).mono
        fun types' n' made place hle hrest hv => ⟨hrest.1, fun e he => ?_⟩
      rcases hrest.2 e he with he | ⟨w, hw, hnew⟩
      · rcases Assoc.mem_of_mem_insert he with rfl | he
        · exact .inr ⟨v, rfl, hv.1, hv.2.1.trans_le hle, hv.2.2⟩
        · exact .inl he
      · exact .inr ⟨w, hw, h1.trans hnew.1, hnew.2⟩

set_option linter.unusedSectionVars false in
mutual

theorem expr_produces : ∀ (e : Expr), records ∨ e.plain = true →
    ∀ (expected : Ty) (k : Rank) (n : Nat), Produces k n (expr env e expected)
      (Demands P expected k n)
  | ⟨id, span, form⟩, hplain, expected, k, n => by
    rintro g c g' h hg rfl rfl
    obtain ⟨_, g1, hnote, h⟩ := bind_eq_ok h
    cases hnote
    have hform := exprForm_produces span form hplain expected _ _ h hg rfl rfl
    exact ⟨hform.toMakes, hform.rank, hform.deep⟩

theorem exprForm_produces (span : Span) : ∀ (e : ExprForm), records ∨ e.plain = true →
    ∀ (expected : Ty) (k : Rank) (n : Nat), Produces k n (exprForm env span e expected)
      (Demands P expected k n)
  | .literal value, _, _, _, _ => by
    exact .pure fun made place V hV ht => .equal hV ht (within_literal hP value)
  | .var name, _, _, _, _ => by
    exact .pure fun made place V hV ht => .instanceOf hV ht
  | .lambda params body, hplain, _, k, n => by
    rw [ExprForm.plain, Bool.and_eq_true] at hplain
    exact function_produces hP (hplain.imp_right And.left)
      (expr_produces body (hplain.imp_right And.right)) k n
  | .apply func args, hplain, expected, k, n => by
    rw [ExprForm.plain, Bool.and_eq_true] at hplain
    refine (freshVars_produces args.length).bind fun vars n1 h1 =>
      (expr_produces func (hplain.imp_right And.left) _ k n1).bind fun c n2 h2 =>
      (exprs_produces args (hplain.imp_right And.right) _ k n2).bind fun cs n3 h3 =>
      .pure fun made place hcs hc hvars => .intro fun W hW hown ht => ?_
    have hargs := hP.within_vars fun v hv => by
      obtain ⟨hle, hlt, hmade, hplace⟩ := hvars v hv
      exact ⟨hplace, hown v hle (by omega) hmade.le⟩
    exact (Constraint.SoundAll.all (.cons h2 (hc W hW (hP.within_curried hargs ht))
      (hcs W hW hargs)) hW).widen h1 le_rfl
  | .letIn defs body, hplain, expected, k, n => by
    rw [ExprForm.plain, Bool.and_eq_true] at hplain
    exact (definitions_produces defs (hplain.imp_right And.left) (k + 1) n).nested.bind
      fun fs n1 h1 => (expr_produces body (hplain.imp_right And.right) expected k n1).bind
      fun c n2 h2 => .pure fun made place hc hfs V hV ht => sound_group hV h1 h2
        (hfs V fun v hv => Nat.le_succ_of_le (hV v hv)) (hc V hV ht)
  | .case scrutinee bs, hplain, expected, k, n => by
    rw [ExprForm.plain, Bool.and_eq_true] at hplain
    refine .freshType fun v n1 h1 =>
      (expr_produces scrutinee (hplain.imp_right And.left) (.var v) k n1).bind fun c n2 h2 =>
      (branches_produces bs (hplain.imp_right And.right) (.var v) expected k n2).bind
      fun cs n3 h3 => .pure fun made place hcs hc hv => .intro fun W hW hown ht => ?_
    obtain ⟨hle, hlt, hmade, hplace⟩ := hv
    have hsubject := hP.within_var hplace (hown v hle (by omega) hmade.le)
    exact (Constraint.SoundAll.all (.cons h2 (hc W hW hsubject) (hcs W hW hsubject ht)) hW).widen h1
      le_rfl
  | .ite cond onTrue onFalse, hplain, expected, k, n => by
    rw [ExprForm.plain, Bool.and_eq_true, Bool.and_eq_true] at hplain
    exact (expr_produces cond (hplain.imp_right fun h => h.1.1) .bool k n).bind fun c n1 h1 =>
      (expr_produces onTrue (hplain.imp_right fun h => h.1.2) expected k n1).bind fun d n2 h2 =>
      (expr_produces onFalse (hplain.imp_right And.right) expected k n2).bind fun e n3 h3 =>
      .pure fun made place he hd hc V hV ht =>
        Constraint.SoundAll.all (.cons h1 (hc V hV (within_literal hP (.bool true)))
          (.cons h2 (hd V hV ht) (.single h3 (he V hV ht)))) hV
  | .list items, hplain, expected, k, n => by
    refine .freshType fun v n1 h1 => (exprs_produces items hplain _ k n1).bind fun cs n2 h2 =>
      .pure fun made place hcs hv => .intro fun W hW hown ht => ?_
    obtain ⟨hle, hlt, hmade, hplace⟩ := hv
    have helem := hP.within_var hplace (hown v hle (by omega) hmade.le)
    have hrest := hcs W hW fun t ht => by
      obtain ⟨_, _, rfl⟩ := List.mem_map.mp ht
      exact helem
    have hlist : (Ty.list (.var v)).Within (P place) W :=
      ⟨hP.list helem.1, fun w hw => helem.2 w (by simpa [Ty.list] using hw)⟩
    exact ((hrest.append (.single le_rfl (.equal hW ht hlist))).all hW).widen h1
      le_rfl
  | .record fs, hplain, expected, k, n => by
    have hrecords : records := hplain.resolve_right (by simp [ExprForm.plain])
    refine (fields_produces fs hrecords k n).bind fun r n1 h1 =>
      .pure fun made place hr => .intro fun W hW hown ht => ?_
    obtain ⟨htypes, hcs⟩ := hr
    have hfields := within_fields hP hown htypes
    have hrow : (Ty.record (Assoc.ofList r.1) none).Within (P place) W :=
      hP.within_closed hrecords (Assoc.sorted_union .nil) fun e he =>
        hfields e ((Assoc.mem_of_mem_union he).resolve_right List.not_mem_nil)
    exact ((hcs W hW hown).append (.single le_rfl (.equal hW ht hrow))).all hW
  | .access record field, hplain, expected, k, n => by
    have hrecords : records := hplain.resolve_right (by simp [ExprForm.plain])
    refine (fresh_produces .row).bind fun ext n1 h1 =>
      (expr_produces record (.inl hrecords) _ k n1).mono fun c n2 made place h2 hc hext =>
      .intro fun W hW hown ht => ?_
    obtain ⟨hle, hlt, hmade, hplace⟩ := hext
    have hsorted : Assoc.Sorted [(field, expected)] := List.pairwise_singleton ..
    have hrow := hP.within_record hrecords hsorted (fun e he => List.mem_singleton.mp he ▸ ht)
      hplace (hown ext hle (by omega) hmade.le)
    exact (hc W hW hrow).widen h1 le_rfl
  | .update record fs, hplain, expected, k, n => by
    have hrecords : records := hplain.resolve_right (by simp [ExprForm.plain])
    refine (fresh_produces .row).bind fun ext n1 h1 => (fieldTypes_produces fs [] .nil).bind
      fun types n2 h2 => (expr_produces record (.inl hrecords) _ k n2).bind fun c n3 h3 =>
      (fieldValues_produces fs hrecords _ k n3).bind fun cs n4 h4 =>
      .pure fun made place hcs hc htypes hext => .intro fun W hW hown ht => ?_
    obtain ⟨hle, hlt, hmade, hplace⟩ := hext
    have hfields := within_fields hP (n := n1) (m := n2)
      (fun v hv hv' => hown v (h1.trans hv) (by omega))
      fun e he => (htypes.2 e he).resolve_left List.not_mem_nil
    have hrow := hP.within_record hrecords htypes.1 hfields hplace
      (hown ext hle (by omega) hmade.le)
    have hvalues := hcs W hW fun t ht => by
      obtain ⟨f, _, hf⟩ := List.mem_filterMap.mp ht
      exact hfields _ (Assoc.mem_of_get? hf)
    exact ((Constraint.SoundAll.append (.cons h3 (hc W hW hrow) hvalues) (.single le_rfl
      (.equal hW ht hrow))).all hW).widen (h1.trans h2) le_rfl

theorem fieldValues_produces : ∀ (fs : List Field), records →
    ∀ (ts : List Ty) (k : Rank) (n : Nat), Produces k n (fieldValues env fs ts)
      fun cs n' made place => ∀ V, (∀ v, V v → made v ≤ k) → (∀ t ∈ ts, t.Within (P place) V) →
        Constraint.SoundAll (P place) made V k n n' cs
  | [], _, ts, _, _ => by
    rw [fieldValues]
    · exact .pure fun _ _ _ _ _ => .nil
    · nofun
  | f :: fs, _, [], _, _ => by
    rw [fieldValues]
    · exact .pure fun _ _ _ _ _ => .nil
    · nofun
  | ⟨name, value⟩ :: fs, hrecords, t :: ts, k, n => by
    exact (expr_produces value (.inl hrecords) t k n).bind fun c n1 h1 =>
      (fieldValues_produces fs hrecords ts k n1).bind fun cs n2 h2 =>
      .pure fun made place hcs hc V hV hts => .cons h1 (hc V hV (hts t (by simp)))
        (hcs V hV fun u hu => hts u (by simp [hu]))

theorem fields_produces : ∀ (fs : List Field), records → ∀ (k : Rank) (n : Nat),
    Produces k n (fields env fs) fun r n' made place =>
      (∀ e ∈ r.1, ∃ v, e.2 = .var v ∧ New k n n' .type made place v) ∧
        ∀ V, (∀ v, V v → made v ≤ k) → (∀ v : Nat, n ≤ v → v < n' → made v ≤ k → V v) →
          Constraint.SoundAll (P place) made V k n n' r.2
  | [], _, _, _ => by
    exact .pure fun _ _ => ⟨nofun, fun _ _ _ => .nil⟩
  | ⟨name, value⟩ :: fs, hrecords, k, n => by
    refine .freshType fun v n1 h1 => (expr_produces value (.inl hrecords) (.var v) k n1).bind
      fun c n2 h2 => (fields_produces fs hrecords k n2).bind fun r n3 h3 =>
      .pure fun made place hr hc hv => ⟨fun e he => ?_, fun V hV hown => ?_⟩
    · rcases List.mem_cons.mp he with rfl | he
      · exact ⟨v, rfl, hv.1, by have := hv.2.1; omega, hv.2.2⟩
      · obtain ⟨w, hw, hnew⟩ := hr.1 e he
        exact ⟨w, hw, (h1.trans h2).trans hnew.1, hnew.2⟩
    · obtain ⟨hle, hlt, hmade, hplace⟩ := hv
      have hfirst := hc V hV (hP.within_var hplace (hown v hle (by omega) hmade.le))
      exact .cons (h1.trans h2) (hfirst.widen h1 le_rfl)
        (hr.2 V hV fun w hw => hown w ((h1.trans h2).trans hw))

theorem exprs_produces : ∀ (es : List Expr), records ∨ plainExprs es = true →
    ∀ (ts : List Ty) (k : Rank) (n : Nat), Produces k n (exprs env es ts)
      fun cs n' made place => ∀ V, (∀ v, V v → made v ≤ k) → (∀ t ∈ ts, t.Within (P place) V) →
        Constraint.SoundAll (P place) made V k n n' cs
  | [], _, ts, _, _ => by
    rw [exprs]
    · exact .pure fun _ _ _ _ _ => .nil
    · nofun
  | e :: es, _, [], _, _ => by
    rw [exprs]
    · exact .pure fun _ _ _ _ _ => .nil
    · nofun
  | e :: es, hplain, t :: ts, k, n => by
    rw [plainExprs, Bool.and_eq_true] at hplain
    exact (expr_produces e (hplain.imp_right And.left) t k n).bind fun c n1 h1 =>
      (exprs_produces es (hplain.imp_right And.right) ts k n1).bind fun cs n2 h2 =>
      .pure fun made place hcs hc V hV hts => .cons h1 (hc V hV (hts t (by simp)))
        (hcs V hV fun u hu => hts u (by simp [hu]))

theorem branches_produces : ∀ (bs : List Branch), records ∨ plainBranches bs = true →
    ∀ (subject expected : Ty) (k : Rank) (n : Nat), Produces k n (branches env subject expected bs)
      fun cs n' made place => ∀ V, (∀ v, V v → made v ≤ k) → subject.Within (P place) V →
        expected.Within (P place) V → Constraint.SoundAll (P place) made V k n n' cs
  | [], _, _, _, _, _ => by
    exact .pure fun _ _ _ _ _ _ => .nil
  | ⟨p, body, span⟩ :: bs, hplain, subject, expected, k, n => by
    rw [plainBranches, Bool.and_eq_true, Bool.and_eq_true] at hplain
    refine (pattern_produces hP p (hplain.imp_right fun h => h.1.1) subject (k + 1) n).nested.bind
      fun f n1 h1 => (expr_produces body (hplain.imp_right fun h => h.1.2) expected k n1).bind
      fun c n2 h2 => (branches_produces bs (hplain.imp_right And.right) subject expected k n2).bind
      fun cs n3 h3 => .pure fun made place hcs hc hf V hV hs ht => ?_
    have hV' : ∀ v, V v → made v ≤ k + 1 := fun v hv => Nat.le_succ_of_le (hV v hv)
    have hpat := hf V hV' hs
    refine .cons (h1.trans h2) (.letIn hV h1 h2 ?_ ?_ hpat.env) (hcs V hV hs ht)
    · exact Constraint.Sound.and hV' le_rfl h1 .checkpoint hpat.constraint
    · exact Constraint.Sound.and hV le_rfl h2 .checkpoint (hc V hV ht)

theorem definitions_produces : ∀ (ds : List Def), records ∨ plainDefs ds = true →
    ∀ (k : Rank) (n : Nat), Produces k n (definitions env ds) fun fs n' made place =>
      ∀ V, (∀ v, V v → made v ≤ k) → Fragment.SoundAll (P place) made V k n n' fs
  | [], _, _, _ => by
    exact .pure fun _ _ _ _ => .nil
  | ⟨name, params, body, span⟩ :: ds, hplain, k, n => by
    rw [plainDefs, Bool.and_eq_true, Bool.and_eq_true] at hplain
    refine (fresh_produces .type).bind fun v n1 h1 =>
      (function_produces hP (hplain.imp_right fun h => h.1.1)
        (expr_produces body (hplain.imp_right fun h => h.1.2)) k n1).bind fun c n2 h2 =>
      (definitions_produces ds (hplain.imp_right And.right) k n2).bind fun fs n3 h3 =>
      .pure fun made place hfs hc hv V hV => ?_
    obtain ⟨hle, hlt, hmade, hplace⟩ := hv
    have hlt' := hlt.trans_le h2
    have hW : ∀ x, Constraint.Around made V k n n2 x → made x ≤ k := fun x hx => hx.le hV
    have hbody := hc _ hW (hP.within_var hplace (.inr ⟨hle, hlt', hmade.le⟩))
    exact .cons (h1.trans h2) (.binding (hP.var hplace) hle hlt' hmade.le (.of_around
      ((Constraint.Sound.and hW le_rfl h2 .checkpoint hbody).widen h1 le_rfl)))
      (hfs V hV)

end

theorem groups_produces {gs : List Group}
    (hplain : records ∨ gs.all (fun g => plainDefs g.defs) = true) :
    Produces k n (groups env gs) fun schemes n' made place => ∀ V, (∀ v, V v → made v ≤ k) →
      (schemes.foldr Scheme.around .trivial).Sound (P place) made V k n n' := by
  induction gs generalizing n with
  | nil => exact .pure fun _ _ _ _ => .trivial
  | cons group gs ih =>
    rw [List.all_cons, Bool.and_eq_true] at hplain
    exact (definitions_produces hP group.defs (hplain.imp_right And.left) (k + 1) n).nested.bind
      fun fs n1 h1 => (ih (hplain.imp_right And.right)).bind fun schemes n2 h2 =>
      .pure fun made place hrest hfs V hV => sound_group hV h1 h2
        (hfs V fun v hv => Nat.le_succ_of_le (hV v hv)) (hrest V hV)

end Walk

end Generate

/-! ## The scope in which a program starts -/

/-- Every scheme is quantified over all variables of its types. -/
def Context.Closed (P : Ty → Prop) (n : Nat) (ctx : Context) : Prop :=
  ∀ e ∈ ctx, (∀ q ∈ e.2.quantifiers, q < n) ∧
    ∀ h ∈ e.2.header, P h.2 ∧ ∀ v ∈ h.2.vars, v ∈ e.2.quantifiers

section Scope

variable {name : String} {sig : Signature} {s s' : Store} {ctx ctx' : Context} {scheme : Scheme}
  {cs : List (String × Constructor)}

theorem closedScheme_cases (name : String) (sig : Signature) (s : Store) :
    (∃ cause s', closedScheme name sig s = (.error (.invalidSignature name cause), s')) ∨
    ∃ t, sig.toTy (assignment sig.freeVars (s.freshNamed 0 sig.freeVars).1) = .ok t ∧
      closedScheme name sig s = (.ok (.closed name t (s.freshNamed 0 sig.freeVars).1),
        (s.freshNamed 0 sig.freeVars).2) := by
  rw [closedScheme]
  cases ht : sig.toTy (assignment sig.freeVars (s.freshNamed 0 sig.freeVars).1) with
  | error e => exact .inl ⟨e, (s.freshNamed 0 sig.freeVars).2, by simp only [ht]⟩
  | ok t => exact .inr ⟨t, rfl, by simp only [ht]⟩

theorem closedScheme_eq_ok (h : closedScheme name sig s = (.ok scheme, s')) :
    ∃ t, s' = (s.freshNamed 0 sig.freeVars).2 ∧
      sig.toTy (assignment sig.freeVars (s.freshNamed 0 sig.freeVars).1) = .ok t ∧
      scheme = .closed name t (s.freshNamed 0 sig.freeVars).1 := by
  rcases closedScheme_cases name sig s with ⟨_, _, heq⟩ | ⟨t, ht, heq⟩
  · cases h.symm.trans heq
  · cases h.symm.trans heq
    exact ⟨t, rfl, ht, rfl⟩

namespace Environment

theorem bindConstructors_cases (cs : List (String × Constructor)) (ctx : Context) (s : Store) :
    (∃ name cause s', bindConstructors cs ctx s = (.error (.invalidSignature name cause), s')) ∨
    bindConstructors cs ctx s = bindValues (Assoc.mapValues Constructor.signature cs) ctx s ∧
      ∀ e ∈ cs, ∀ x ∈ e.2.signature.freeVars, x ∈ e.2.params := by
  induction cs generalizing ctx s with
  | nil => exact .inr ⟨rfl, nofun⟩
  | cons e cs ih =>
    rw [bindConstructors, Assoc.mapValues, List.map_cons, bindValues]
    cases hfirst : firstUnbound e.2.params e.2.signature.freeVars with
    | some unknown => exact .inl ⟨e.1, _, s, rfl⟩
    | none =>
      rcases closedScheme_cases e.1 e.2.signature s with ⟨cause, s', heq⟩ | ⟨t, _, heq⟩
      · rw [heq]
        exact .inl ⟨e.1, cause, s', rfl⟩
      · rw [heq]
        refine (ih _ _).imp_right fun hrest => ⟨hrest.1, fun e' he => ?_⟩
        rcases List.mem_cons.mp he with rfl | he
        · have hall := List.find?_eq_none.mp hfirst
          exact fun x hx => by simpa using hall x hx
        · exact hrest.2 e' he

theorem bindConstructors_eq_ok (h : bindConstructors cs ctx s = (.ok ctx', s')) :
    bindValues (Assoc.mapValues Constructor.signature cs) ctx s = (.ok ctx', s') ∧
      ∀ e ∈ cs, ∀ x ∈ e.2.signature.freeVars, x ∈ e.2.params := by
  rcases bindConstructors_cases cs ctx s with ⟨_, _, _, heq⟩ | ⟨heq, hscoped⟩
  · cases h.symm.trans heq
  · exact ⟨heq.symm.trans h, hscoped⟩

end Environment
end Scope

section Walk

variable {env : Environment} {records : Prop} {P : (Var → Place) → Ty → Prop}
  (hP : Admits env records P)

include hP

variable {s s' : Store} {ctx ctx' : Context} {program : Program} {p : Prepared}

theorem closedScheme_makes {name : String} {sig : Signature} (hsig : env.Offers sig)
    {scheme : Scheme} (h : closedScheme name sig s = (.ok scheme, s')) (hs : s.Untouched) :
    Store.Makes s s' fun _ place => ∀ ctx : Context, ctx.Closed (P place) s.size →
      Context.Closed (P place) s'.size (Assoc.insert ctx name scheme) := by
  obtain ⟨t, rfl, ht, rfl⟩ := closedScheme_eq_ok h
  have hvars : s.freshNamed 0 sig.freeVars = (_, _) := rfl
  have hmakes := Generate.signature_makes hP hsig hvars hs
  have hrange := (Generate.makes_freshNamed hvars hs fun _ => .type).2.1
  refine hmakes.mono fun made place hsig ctx hctx e he => ?_
  obtain ⟨hPt, hvs⟩ := hsig t ht
  rcases Assoc.mem_of_mem_insert he with rfl | he
  · refine ⟨fun q hq => (hrange q (mem_sortVars.mp hq)).2, fun h hh => ?_⟩
    obtain rfl := List.mem_singleton.mp hh
    exact ⟨hPt, fun v hv => mem_sortVars.mpr (hvs v hv).1⟩
  · refine ⟨fun q hq => ?_, (hctx e he).2⟩
    exact ((hctx e he).1 q hq).trans_le hmakes.size_le

theorem bindValues_makes {vs : List (String × Signature)} (hvs : ∀ e ∈ vs, env.Offers e.2)
    (h : Environment.bindValues vs ctx s = (.ok ctx', s')) (hs : s.Untouched) :
    Store.Makes s s' fun _ place => ctx.Closed (P place) s.size →
      ctx'.Closed (P place) s'.size := by
  induction vs generalizing ctx s with
  | nil => cases h; exact .refl hs fun _ _ h => h
  | cons e vs ih =>
    obtain ⟨name, sig⟩ := e
    rw [Environment.bindValues] at h
    split at h
    · cases h
    · rename_i scheme s1 hscheme
      have hmakes := closedScheme_makes hP (hvs (name, sig) (by simp)) hscheme hs
      have hrest := ih (fun e he => hvs e (by simp [he])) h hmakes.untouched
      exact (hmakes.and hrest).mono fun made place ⟨hscheme, hrest⟩ hctx => hrest (hscheme ctx hctx)

theorem initialContext_makes (h : env.initialContext s = (.ok ctx, s')) (hs : s.Untouched) :
    Store.Makes s s' fun _ place => ctx.Closed (P place) s'.size := by
  rw [Environment.initialContext] at h
  split at h
  · cases h
  · rename_i ctx1 s1 hctx
    have hcs := bindValues_makes hP (fun e he => by
      obtain ⟨⟨name, c⟩, hc, rfl⟩ := List.mem_map.mp he
      exact .inl ⟨name, c, hc, rfl⟩) (Environment.bindConstructors_eq_ok hctx).1 hs
    have hvs := bindValues_makes hP (fun e he => .inr ⟨e.1, he⟩) h hcs.untouched
    exact (hcs.and hvs).mono fun made place ⟨hcs, hvs⟩ => hvs (hcs nofun)

omit hP in
theorem Prepared.ofProgram_eq_ok (h : ofProgram program env = .ok p) :
    ∃ table ctx s c g, env.aliasTable = .ok table ∧
      env.initialContext { aliases := table } = (.ok ctx, s) ∧
      Generate.program env program { store := s } = .ok c g ∧
      p = ⟨ctx, c, g.nodeTypes, s.size, g.store⟩ := by
  rw [ofProgram] at h
  split at h
  · cases h
  · rename_i table htable
    split at h
    · cases h
    · rename_i ctx s hctx
      split at h
      · cases h
      · rename_i c g hprogram
        cases h
        exact ⟨table, ctx, s, c, g, htable, hctx, hprogram, rfl⟩

theorem ofProgram_makes (hplain : records ∨ program.plain = true)
    (h : Prepared.ofProgram program env = .ok p) : ∃ table,
      env.aliasTable = .ok table ∧ p.store.aliases = table ∧ p.initialSize ≤ p.store.size ∧
      p.store.Untouched ∧ ∃ place, ∀ made, p.store.MadeAt made →
        p.context.Closed (P place) p.initialSize ∧ p.constraint.Sound (P place) made (fun _ => False)
          0 p.initialSize p.store.size := by
  obtain ⟨table, ctx, s, c, g, htable, hctx, hprogram, rfl⟩ := Prepared.ofProgram_eq_ok h
  obtain ⟨schemes, g1, hgroups, hpure⟩ := Generate.bind_eq_ok hprogram
  obtain ⟨rfl, rfl⟩ := Generate.pure_eq_ok hpure
  have hctx := initialContext_makes hP hctx (Store.untouched_empty table)
  have hgroups := Generate.groups_produces hP hplain hgroups hctx.untouched rfl rfl
  obtain ⟨place, hplace⟩ := (hctx.and hgroups.toMakes).places
  refine ⟨table, htable, hgroups.aliases.trans hctx.aliases, hgroups.size_le,
    hgroups.untouched, place, fun made hmade => ?_⟩
  obtain ⟨hclosed, hsound⟩ := hplace place (fun _ _ _ => rfl) made hmade
  exact ⟨hclosed, hsound _ nofun⟩

end Walk
end TypeSolver
