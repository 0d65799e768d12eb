import TypeSolver.Fragment
import TypeSolver.Proofs.Terms
import TypeSolver.Proofs.Fields
import TypeSolver.Proofs.Moments

/-!
# TypeSolver.Proofs.Scopes

Where the variables of a constraint belong. A constraint that is solved at rank `k` is scoped when
its demands are about variables made at rank `k` or further outside, each boundary in it is scoped
one rank deeper, and what was made deeper than `k` occurs in one of its parts only.

A `Sound` constraint is scoped, its types have a given property, and apart from the variables of a
given set it mentions those of a range only. Constraints over ranges that follow each other can be
put together (`Sound.and`, `Sound.letIn`).
-/

namespace TypeSolver

variable {vs : List Var}

theorem mem_insertVar {v w : Var} : w ∈ insertVar v vs ↔ w = v ∨ w ∈ vs := by
  induction vs with
  | nil => simp [insertVar]
  | cons x xs ih =>
    rw [insertVar]
    split
    · simp
    · split
      · rename_i heq; simp [heq]
      · simp [ih, or_left_comm]

theorem mem_sortVars {v : Var} : v ∈ sortVars vs ↔ v ∈ vs := by
  suffices ∀ acc, v ∈ vs.foldl (fun acc v => insertVar v acc) acc ↔ v ∈ acc ∨ v ∈ vs by
    rw [sortVars, this]; simp
  induction vs with
  | nil => simp
  | cons x xs ih =>
    intro acc
    rw [List.foldl_cons, ih, mem_insertVar]
    simp [or_assoc, or_left_comm]

def Ty.Within (P : Ty → Prop) (V : Var → Prop) (t : Ty) : Prop := P t ∧ ∀ v ∈ t.vars, V v

namespace Constraint

inductive Mentions (v : Var) : Constraint → Prop where
  | expected {expected actual : Ty} {span : Span} : v ∈ expected.vars →
      Mentions v (.equal expected actual span)
  | actual {expected actual : Ty} {span : Span} : v ∈ actual.vars →
      Mentions v (.equal expected actual span)
  | instanceOf {name : String} {ty : Ty} {span : Span} : v ∈ ty.vars →
      Mentions v (.instanceOf name ty span)
  | item {items : List Constraint} {c : Constraint} : c ∈ items → Mentions v c →
      Mentions v (.conj items)
  | header {vars : List Var} {header : Header} {defs body : Constraint} {e : String × Ty} :
      e ∈ header → v ∈ e.2.vars → Mentions v (.letIn vars header defs body)
  | defs {vars : List Var} {header : Header} {defs body : Constraint} : Mentions v defs →
      Mentions v (.letIn vars header defs body)
  | body {vars : List Var} {header : Header} {defs body : Constraint} : Mentions v body →
      Mentions v (.letIn vars header defs body)

/-- What both constraints mention was made at rank `k` or further outside. -/
def Apart (made : Var → Rank) (k : Rank) (c d : Constraint) : Prop :=
  ∀ v, c.Mentions v → d.Mentions v → made v ≤ k

inductive Scoped (made : Var → Rank) : Rank → Constraint → Prop where
  | trivial {k : Rank} : Scoped made k .trivial
  | checkpoint {k : Rank} {span : Span} : Scoped made k (.checkpoint span)
  | equal {k : Rank} {expected actual : Ty} {span : Span} :
      (∀ v ∈ expected.vars, made v ≤ k) → (∀ v ∈ actual.vars, made v ≤ k) →
      Scoped made k (.equal expected actual span)
  | instanceOf {k : Rank} {name : String} {ty : Ty} {span : Span} :
      (∀ v ∈ ty.vars, made v ≤ k) → Scoped made k (.instanceOf name ty span)
  | conj {k : Rank} {items : List Constraint} : (∀ c ∈ items, Scoped made k c) →
      items.Pairwise (Apart made k) → Scoped made k (.conj items)
  | letIn {k : Rank} {vars : List Var} {header : Header} {defs body : Constraint} :
      (∀ e ∈ header, ∀ v ∈ e.2.vars, made v ≤ k + 1 ∧ (body.Mentions v → made v ≤ k)) →
      Scoped made (k + 1) defs → Scoped made k body → Apart made k defs body →
      Scoped made k (.letIn vars header defs body)

/-- All types in demands and headers have the property. -/
inductive Types (P : Ty → Prop) : Constraint → Prop where
  | trivial : Types P .trivial
  | checkpoint {span : Span} : Types P (.checkpoint span)
  | equal {expected actual : Ty} {span : Span} : P expected → P actual →
      Types P (.equal expected actual span)
  | instanceOf {name : String} {ty : Ty} {span : Span} : P ty → Types P (.instanceOf name ty span)
  | conj {items : List Constraint} : (∀ c ∈ items, Types P c) → Types P (.conj items)
  | letIn {vars : List Var} {header : Header} {defs body : Constraint} : (∀ e ∈ header, P e.2) →
      Types P defs → Types P body → Types P (.letIn vars header defs body)

theorem Types.imp {P P' : Ty → Prop} {c : Constraint} (h : c.Types P)
    (hP : ∀ t, P t → (∀ v ∈ t.vars, c.Mentions v) → P' t) : c.Types P' := by
  induction h with
  | trivial => exact .trivial
  | checkpoint => exact .checkpoint
  | equal he ha => exact .equal (hP _ he fun v hv => .expected hv) (hP _ ha fun v hv => .actual hv)
  | instanceOf ht => exact .instanceOf (hP _ ht fun v hv => .instanceOf hv)
  | conj _ ih => exact .conj fun c hc => ih c hc fun t ht hv => hP t ht fun v h => .item hc (hv v h)
  | letIn hheader _ _ ihd ihb =>
    exact .letIn (fun e he => hP _ (hheader e he) fun v hv => .header he hv)
      (ihd fun t ht hv => hP t ht fun v h => .defs (hv v h))
      (ihb fun t ht hv => hP t ht fun v h => .body (hv v h))

/-- The parts of a conjunction; any other constraint is its own part. -/
def parts : Constraint → List Constraint
  | .trivial => []
  | .conj items => items
  | c => [c]

theorem parts_and (c d : Constraint) : (c.and d).parts = c.parts ++ d.parts := by
  cases c <;> cases d <;> simp [and, parts]

variable {P : Ty → Prop} {made : Var → Rank} {k : Rank} {c d : Constraint} {v : Var}

theorem mentions_iff_parts : c.Mentions v ↔ ∃ p ∈ c.parts, p.Mentions v := by
  cases c with
  | trivial => exact ⟨nofun, nofun⟩
  | conj items =>
    exact ⟨fun h => by cases h with | item hc h => exact ⟨_, hc, h⟩, fun ⟨_, hc, h⟩ => .item hc h⟩
  | _ => simp [parts]

theorem scoped_iff_parts : c.Scoped made k ↔
    (∀ p ∈ c.parts, p.Scoped made k) ∧ c.parts.Pairwise (Apart made k) := by
  cases c with
  | trivial => exact ⟨fun _ => ⟨nofun, .nil⟩, fun _ => .trivial⟩
  | conj items =>
    exact ⟨fun h => by cases h with | conj h hp => exact ⟨h, hp⟩, fun ⟨h, hp⟩ => .conj h hp⟩
  | _ => simp [parts]

theorem types_iff_parts : c.Types P ↔ ∀ p ∈ c.parts, p.Types P := by
  cases c with
  | trivial => exact ⟨fun _ => nofun, fun _ => .trivial⟩
  | conj items => exact ⟨fun h => by cases h with | conj h => exact h, .conj⟩
  | _ => simp [parts]

theorem mentions_and : (c.and d).Mentions v ↔ c.Mentions v ∨ d.Mentions v := by
  simp only [mentions_iff_parts (c := c.and d), mentions_iff_parts (c := c),
    mentions_iff_parts (c := d), parts_and, List.mem_append, or_and_right, exists_or]

theorem types_and : (c.and d).Types P ↔ c.Types P ∧ d.Types P := by
  simp only [types_iff_parts (c := c.and d), types_iff_parts (c := c), types_iff_parts (c := d),
    parts_and, List.mem_append, or_imp, forall_and]

theorem Scoped.and (hc : c.Scoped made k) (hd : d.Scoped made k) (h : Apart made k c d) :
    (c.and d).Scoped made k := by
  obtain ⟨hc, hpc⟩ := scoped_iff_parts.mp hc
  obtain ⟨hd, hpd⟩ := scoped_iff_parts.mp hd
  rw [scoped_iff_parts, parts_and]
  refine ⟨fun p hp => (List.mem_append.mp hp).elim (hc p) (hd p), List.pairwise_append.mpr
    ⟨hpc, hpd, fun p hp q hq v hv hv' => ?_⟩⟩
  exact h v (mentions_iff_parts.mpr ⟨p, hp, hv⟩) (mentions_iff_parts.mpr ⟨q, hq, hv'⟩)

/-- A constraint to be solved at rank `k`. It is about types with the property `P`, over the
variables `V` of its surroundings and those of its own, which are in the range from `n` to `n'`. -/
structure Sound (P : Ty → Prop) (made : Var → Rank) (V : Var → Prop) (k : Rank) (n n' : Nat)
    (c : Constraint) : Prop where
  inScope : c.Scoped made k
  mentions : ∀ v, c.Mentions v → V v ∨ n ≤ v ∧ v < n'
  types : c.Types P

variable {V W : Var → Prop} {n n' n0 n1 n2 : Nat}

namespace Sound

theorem mono (h : c.Sound P made W k n1 n2) (hW : ∀ v, W v → V v ∨ n ≤ v ∧ v < n') (hn : n ≤ n1)
    (hn' : n2 ≤ n') : c.Sound P made V k n n' :=
  ⟨h.inScope, fun v hv => (h.mentions v hv).elim (hW v) fun hv =>
    .inr ⟨hn.trans hv.1, Nat.lt_of_lt_of_le hv.2 hn'⟩, h.types⟩

theorem widen (h : c.Sound P made V k n1 n2) (hn : n ≤ n1) (hn' : n2 ≤ n') :
    c.Sound P made V k n n' := h.mono (fun _ hv => .inl hv) hn hn'

theorem trivial : Constraint.trivial.Sound P made V k n n' := ⟨.trivial, nofun, .trivial⟩

variable {span : Span}

theorem checkpoint : (Constraint.checkpoint span).Sound P made V k n n' :=
  ⟨.checkpoint, nofun, .checkpoint⟩

theorem equal {expected actual : Ty} (hV : ∀ v, V v → made v ≤ k) (he : expected.Within P V)
    (ha : actual.Within P V) : (Constraint.equal expected actual span).Sound P made V k n n' := by
  refine ⟨.equal (fun v hv => hV v (he.2 v hv)) fun v hv => hV v (ha.2 v hv), fun v hv => ?_,
    .equal he.1 ha.1⟩
  cases hv with
  | expected hv => exact .inl (he.2 v hv)
  | actual hv => exact .inl (ha.2 v hv)

theorem instanceOf {name : String} {ty : Ty} (hV : ∀ v, V v → made v ≤ k) (ht : ty.Within P V) :
    (Constraint.instanceOf name ty span).Sound P made V k n n' := by
  refine ⟨.instanceOf fun v hv => hV v (ht.2 v hv), fun v hv => ?_, .instanceOf ht.1⟩
  cases hv with
  | instanceOf hv => exact .inl (ht.2 v hv)

theorem and_of_apart (hc : c.Sound P made V k n n') (hd : d.Sound P made V k n n')
    (h : Apart made k c d) : (c.and d).Sound P made V k n n' :=
  ⟨hc.inScope.and hd.inScope h,
    fun v hv => (mentions_and.mp hv).elim (hc.mentions v) (hd.mentions v),
    types_and.mpr ⟨hc.types, hd.types⟩⟩

theorem apart (hV : ∀ v, V v → made v ≤ k) {k' k'' : Rank}
    (hc : c.Sound P made V k' n n1) (hd : d.Sound P made V k'' n1 n') : Apart made k c d := by
  intro v hv hv'
  rcases hc.mentions v hv with hv | ⟨_, hlt⟩
  · exact hV v hv
  · rcases hd.mentions v hv' with hv' | ⟨hle, _⟩
    · exact hV v hv'
    · exact absurd hle (Nat.not_le.mpr hlt)

variable (hV : ∀ v, V v → made v ≤ k) (hn : n ≤ n1) (hn' : n1 ≤ n')

include hV hn hn'

theorem and (hc : c.Sound P made V k n n1) (hd : d.Sound P made V k n1 n') :
    (c.and d).Sound P made V k n n' :=
  and_of_apart (hc.widen (Nat.le_refl n) hn') (hd.widen hn (Nat.le_refl n')) (apart hV hc hd)

theorem and_swap (hc : c.Sound P made V k n n1) (hd : d.Sound P made V k n1 n') :
    (d.and c).Sound P made V k n n' :=
  and_of_apart (hd.widen hn (Nat.le_refl n')) (hc.widen (Nat.le_refl n) hn')
    fun v hv hv' => apart hV hc hd v hv' hv

theorem letIn {vars : List Var} {header : Header} {defs body : Constraint}
    (hdefs : defs.Sound P made V (k + 1) n n1) (hbody : body.Sound P made V k n1 n')
    (hheader : ∀ e ∈ header, P e.2 ∧ ∀ v ∈ e.2.vars, n ≤ v ∧ v < n1 ∧ made v ≤ k + 1) :
    (Constraint.letIn vars header defs body).Sound P made V k n n' := by
  refine ⟨.letIn (fun e he v hv => ?_) hdefs.inScope hbody.inScope (apart hV hdefs hbody),
    fun v hv => ?_, .letIn (fun e he => (hheader e he).1) hdefs.types hbody.types⟩
  · obtain ⟨_, hlt, hmade⟩ := (hheader e he).2 v hv
    refine ⟨hmade, fun hv' => ?_⟩
    rcases hbody.mentions v hv' with hv' | ⟨hle, _⟩
    · exact hV v hv'
    · exact absurd hle (Nat.not_le.mpr hlt)
  · cases hv with
    | header he hv =>
      obtain ⟨hle, hlt, _⟩ := (hheader _ he).2 v hv
      exact .inr ⟨hle, Nat.lt_of_lt_of_le hlt hn'⟩
    | defs hv =>
      exact (hdefs.mentions v hv).imp_right fun h => ⟨h.1, Nat.lt_of_lt_of_le h.2 hn'⟩
    | body hv => exact (hbody.mentions v hv).imp_right fun h => ⟨hn.trans h.1, h.2⟩

end Sound

/-- The surroundings of the parts of a constraint: its own surroundings, and those variables of its
range that are made at its rank or further outside. -/
def Around (made : Var → Rank) (V : Var → Prop) (k : Rank) (n n' : Nat) (v : Var) : Prop :=
  V v ∨ n ≤ v ∧ v < n' ∧ made v ≤ k

theorem Around.le (hV : ∀ v, V v → made v ≤ k) (h : Around made V k n n' v) : made v ≤ k :=
  h.elim (hV v) fun h => h.2.2

/-- What the parts share belongs to the constraint. -/
theorem Sound.of_around (h : c.Sound P made (Around made V k n n') k n n') :
    c.Sound P made V k n n' :=
  h.mono (fun _ hv => hv.imp_right fun h => ⟨h.1, h.2.1⟩) (Nat.le_refl n) (Nat.le_refl n')

theorem Sound.recursive {header : Header} {defs : Constraint}
    (hdefs : defs.Sound P made V k n n')
    (hheader : ∀ e ∈ header, P e.2 ∧ ∀ v ∈ e.2.vars, n ≤ v ∧ v < n' ∧ made v ≤ k) :
    (Constraint.recursive header defs).Sound P made V k n n' := by
  rw [Constraint.recursive]
  split
  · exact hdefs
  · refine ⟨.letIn (fun e he v hv => ?_) .trivial hdefs.inScope (fun v hv => nomatch hv),
      fun v hv => ?_, .letIn (fun e he => (hheader e he).1) .trivial hdefs.types⟩
    · have := ((hheader e he).2 v hv).2.2
      exact ⟨Nat.le_succ_of_le this, fun _ => this⟩
    · cases hv with
      | header he hv =>
        obtain ⟨hle, hlt, _⟩ := (hheader _ he).2 v hv
        exact .inr ⟨hle, hlt⟩
      | defs hv => cases hv
      | body hv => exact hdefs.mentions v hv

/-- Constraints over ranges that follow each other. -/
inductive SoundAll (P : Ty → Prop) (made : Var → Rank) (V : Var → Prop) (k : Rank) :
    Nat → Nat → List Constraint → Prop where
  | nil {n : Nat} : SoundAll P made V k n n []
  | cons {n n1 n' : Nat} {c : Constraint} {cs : List Constraint} : n ≤ n1 →
      c.Sound P made V k n n1 → SoundAll P made V k n1 n' cs → SoundAll P made V k n n' (c :: cs)

namespace SoundAll

variable {cs ds : List Constraint}

theorem single (hn : n ≤ n') (h : c.Sound P made V k n n') : SoundAll P made V k n n' [c] :=
  .cons hn h .nil

theorem append (h : SoundAll P made V k n n1 cs) (h' : SoundAll P made V k n1 n' ds) :
    SoundAll P made V k n n' (cs ++ ds) := by
  induction h with
  | nil => exact h'
  | cons hn hc _ ih => exact .cons hn hc (ih h')

theorem foldl (h : SoundAll P made V k n1 n' cs) (hV : ∀ v, V v → made v ≤ k)
    (hn : n ≤ n1) (hc : c.Sound P made V k n n1) :
    (cs.foldl Constraint.and c).Sound P made V k n n' := by
  induction h generalizing c with
  | nil => exact hc
  | cons hn1 hd _ ih => exact ih (hn.trans hn1) (hc.and hV hn hn1 hd)

theorem all (h : SoundAll P made V k n n' cs) (hV : ∀ v, V v → made v ≤ k) :
    (Constraint.all cs).Sound P made V k n n' :=
  h.foldl hV (Nat.le_refl n) .trivial

end SoundAll
end Constraint

/-- What a pattern or a definition contributes to a group whose definitions are solved at rank
`k`: the variables of its names are its own. -/
structure Fragment.Sound (P : Ty → Prop) (made : Var → Rank) (V : Var → Prop) (k : Rank)
    (n n' : Nat) (f : Fragment) : Prop where
  constraint : f.constraint.Sound P made V k n n'
  env : ∀ e ∈ f.env, P e.2 ∧ ∀ v ∈ e.2.vars, n ≤ v ∧ v < n' ∧ made v ≤ k

namespace Fragment

variable {P : Ty → Prop} {made : Var → Rank} {V W : Var → Prop} {k : Rank} {n n' n1 n2 : Nat}
  {f g : Fragment}

theorem Sound.empty : Fragment.empty.Sound P made V k n n' := ⟨.trivial, nofun⟩

theorem Sound.mono (h : f.Sound P made W k n1 n2) (hW : ∀ v, W v → V v ∨ n ≤ v ∧ v < n')
    (hn : n ≤ n1) (hn' : n2 ≤ n') : f.Sound P made V k n n' :=
  ⟨h.constraint.mono hW hn hn', fun e he => ⟨(h.env e he).1, fun v hv => by
    obtain ⟨hle, hlt, hmade⟩ := (h.env e he).2 v hv
    exact ⟨hn.trans hle, Nat.lt_of_lt_of_le hlt hn', hmade⟩⟩⟩

variable {c : Constraint}

theorem Sound.demand (hc : c.Sound P made V k n n') (vars : List Var) :
    Fragment.Sound P made V k n n' { vars := vars, constraint := c } := ⟨hc, nofun⟩

theorem Sound.widen (h : f.Sound P made V k n1 n2) (hn : n ≤ n1) (hn' : n2 ≤ n') :
    f.Sound P made V k n n' := h.mono (fun _ hv => .inl hv) hn hn'

theorem Sound.of_around (h : f.Sound P made (Constraint.Around made V k n n') k n n') :
    f.Sound P made V k n n' :=
  h.mono (fun _ hv => hv.imp_right fun h => ⟨h.1, h.2.1⟩) (Nat.le_refl n) (Nat.le_refl n')

theorem Sound.binding {name : String} {v : Var} (hP : P (.var v)) (hn : n ≤ v) (hn' : v < n')
    (hmade : made v ≤ k) (hc : c.Sound P made V k n n') :
    (Fragment.binding name v c).Sound P made V k n n' := by
  refine ⟨hc, fun e he => ?_⟩
  obtain rfl := List.mem_singleton.mp he
  exact ⟨hP, fun w hw => by obtain rfl := Ty.mem_vars_var.mp hw; exact ⟨hn, hn', hmade⟩⟩

variable (hV : ∀ v, V v → made v ≤ k) (hn : n ≤ n1) (hn' : n1 ≤ n')

include hV hn hn'

theorem Sound.join (hf : f.Sound P made V k n n1) (hg : g.Sound P made V k n1 n') :
    (f.join g).Sound P made V k n n' := by
  refine ⟨hf.constraint.and hV hn hn' hg.constraint, fun e he => ?_⟩
  rcases Assoc.mem_of_mem_union he with he | he
  · exact (hf.widen (Nat.le_refl n) hn').env e he
  · exact (hg.widen hn (Nat.le_refl n')).env e he

theorem Sound.join_swap (hf : f.Sound P made V k n n1) (hg : g.Sound P made V k n1 n') :
    (g.join f).Sound P made V k n n' := by
  refine ⟨hf.constraint.and_swap hV hn hn' hg.constraint, fun e he => ?_⟩
  rcases Assoc.mem_of_mem_union he with he | he
  · exact (hg.widen hn (Nat.le_refl n')).env e he
  · exact (hf.widen (Nat.le_refl n) hn').env e he

omit hV hn hn'

inductive SoundAll (P : Ty → Prop) (made : Var → Rank) (V : Var → Prop) (k : Rank) :
    Nat → Nat → List Fragment → Prop where
  | nil {n : Nat} : SoundAll P made V k n n []
  | cons {n n1 n' : Nat} {f : Fragment} {fs : List Fragment} : n ≤ n1 →
      f.Sound P made V k n n1 → SoundAll P made V k n1 n' fs → SoundAll P made V k n n' (f :: fs)

theorem SoundAll.joinAll {fs : List Fragment} (h : SoundAll P made V k n n' fs)
    (hV : ∀ v, V v → made v ≤ k) : (joinAll fs).Sound P made V k n n' := by
  suffices ∀ n0 (acc : Fragment), n0 ≤ n → acc.Sound P made V k n0 n →
      (fs.foldl (fun acc f => f.join acc) acc).Sound P made V k n0 n' from
    this n empty (Nat.le_refl n) .empty
  induction h with
  | nil => exact fun n0 acc _ hacc => hacc
  | cons hn1 hf _ ih =>
    exact fun n0 acc hn0 hacc => ih n0 _ (hn0.trans hn1) (hacc.join_swap hV hn0 hn1 hf)

theorem sorted_joinAll (fs : List Fragment) : Assoc.Sorted (joinAll fs).env := by
  suffices ∀ acc : Fragment, Assoc.Sorted acc.env →
      Assoc.Sorted (fs.foldl (fun acc f => f.join acc) acc).env from this empty .nil
  induction fs with
  | nil => exact fun acc hacc => hacc
  | cons f fs ih => exact fun acc hacc => ih (f.join acc) (Assoc.sorted_union hacc)

end Fragment
end TypeSolver
