import TypeSolver.Proofs.Constructors
import TypeSolver.Proofs.Fragments

/-!
# TypeSolver.Proofs.Binders

What the fragment of a pattern binds. A part of the walk that makes a given number of variables takes
the next ones in order (`Allots`), so the variable of each name in a pattern can be read off the
pattern: `Pattern.binders` lists the names as they are written, a name that is given to a pattern
after those inside, with the variable of each. The last of them that is written decides about a name
(`Fragment.Binds`).
-/

namespace TypeSolver

/-- How many types a constructor is over. -/
def Environment.arity (env : Environment) (name : String) : Nat :=
  match Assoc.get? env.constructors name with
  | some c => c.params.length
  | none => 0

section Binders

variable (env : Environment)

mutual

def Pattern.width : Pattern → Nat
  | ⟨_, form⟩ => form.width

def PatternForm.width : PatternForm → Nat
  | .wildcard => 0
  | .var _ => 1
  | .literal _ => 0
  | .ctor name args => env.arity name + (args.length + patternsWidth args)
  | .record fields => 1 + fields.length
  | .named inner _ => 1 + inner.width

def patternsWidth : List Pattern → Nat
  | [] => 0
  | p :: ps => p.width + patternsWidth ps

end

mutual

/-- The names in a pattern as they are written, with their variables if `v` is the first one made
for the pattern. -/
def Pattern.binders : Pattern → Var → List (String × Var)
  | ⟨_, form⟩, v => form.binders v

def PatternForm.binders : PatternForm → Var → List (String × Var)
  | .wildcard, _ => []
  | .var name, v => [(name, v)]
  | .literal _, _ => []
  | .ctor name args, v => patternsBinders args (v + env.arity name + args.length)
  | .record fields, v => fields.zipIdx (v + 1)
  | .named inner name, v => inner.binders (v + 1) ++ [(name, v)]

def patternsBinders : List Pattern → Var → List (String × Var)
  | [], _ => []
  | p :: ps, v => p.binders v ++ patternsBinders ps (v + p.width env)

end

variable {x : String}

mutual

theorem Pattern.mem_keys_binders : ∀ (p : Pattern) (v : Var),
    x ∈ Assoc.keys (p.binders env v) ↔ x ∈ p.names
  | ⟨_, form⟩, v => by
    exact form.mem_keys_binders v

theorem PatternForm.mem_keys_binders : ∀ (p : PatternForm) (v : Var),
    x ∈ Assoc.keys (p.binders env v) ↔ x ∈ p.names
  | .wildcard, v => by simp [PatternForm.binders, PatternForm.names, Assoc.keys]
  | .var name, v => by simp [PatternForm.binders, PatternForm.names, Assoc.keys]
  | .literal _, v => by simp [PatternForm.binders, PatternForm.names, Assoc.keys]
  | .ctor name args, v => by
    exact mem_keys_patternsBinders args _
  | .record fields, v => by
    rw [PatternForm.binders, PatternForm.names, Assoc.keys, List.zipIdx_map_fst]
  | .named inner name, v => by
    rw [PatternForm.binders, PatternForm.names, List.mem_cons, ← inner.mem_keys_binders (v + 1)]
    simp [Assoc.keys, or_comm]

theorem mem_keys_patternsBinders : ∀ (ps : List Pattern) (v : Var),
    x ∈ Assoc.keys (patternsBinders env ps v) ↔ x ∈ patternNames ps
  | [], v => by simp [patternsBinders, patternNames, Assoc.keys]
  | p :: ps, v => by
    rw [patternsBinders, patternNames, List.mem_append, ← p.mem_keys_binders v,
      ← mem_keys_patternsBinders ps (v + p.width env)]
    simp [Assoc.keys]

end

end Binders

/-- The fragment binds the names of `bs` and no others, a name that stands there more than once to
the variable of its last place. The variables of the fragment are different ones of the `n` that
follow `lo`. -/
structure Fragment.Binds (lo n : Nat) (bs : List (String × Var)) (f : Fragment) : Prop where
  ordered : f.Ordered
  get? : ∀ x, Assoc.get? f.env x = (Assoc.get? bs.reverse x).map Ty.var
  listed : ∀ b ∈ bs, b.2 ∈ f.vars
  vars : ∀ v : Nat, v ∈ f.vars → lo ≤ v ∧ v < lo + n
  nodup : f.vars.Nodup

namespace Fragment

variable {f g : Fragment} {lo n k : Nat} {bs cs : List (String × Var)}

theorem get?_append {α : Type} (m m' : List (String × α)) (x : String) :
    Assoc.get? (m ++ m') x = (Assoc.get? m x).or (Assoc.get? m' x) := by
  induction m with
  | nil => rfl
  | cons e m ih =>
    obtain ⟨y, a⟩ := e
    by_cases h : x = y <;> simp [Assoc.get?, h, ih]

theorem Binds.join {a b : Nat} (hf : f.Binds a n bs) (hg : g.Binds b k cs)
    (hnext : a = lo ∧ b = lo + n ∨ b = lo ∧ a = lo + k) :
    (f.join g).Binds lo (n + k) (cs ++ bs) where
  ordered := hg.ordered.join
  get? x := by
    rw [Fragment.join, Assoc.get?_union hf.ordered, hf.get?, hg.get?, List.reverse_append,
      get?_append]
    cases Assoc.get? bs.reverse x <;> rfl
  listed e he := by
    rcases List.mem_append.mp he with he | he
    · exact List.mem_append_right _ (hg.listed e he)
    · exact List.mem_append_left _ (hf.listed e he)
  vars v hv := by
    rcases List.mem_append.mp hv with hv | hv
    · have hrange := hf.vars v hv
      omega
    · have hrange := hg.vars v hv
      omega
  nodup := by
    refine List.nodup_append.mpr ⟨hf.nodup, hg.nodup, ?_⟩
    rintro v hv w hw rfl
    have hrange := hf.vars v hv
    have hrange' := hg.vars v hw
    omega

theorem Binds.binding (name : String) (v : Var) (c : Constraint) :
    (Fragment.binding name v c).Binds v 1 [(name, v)] where
  ordered := List.pairwise_singleton ..
  get? x := by by_cases h : x = name <;> simp [Fragment.binding, Assoc.get?, h]
  listed := by simp [Fragment.binding]
  vars := by simp [Fragment.binding]
  nodup := List.nodup_singleton v

theorem Binds.head (lo n : Nat) (c : Constraint) :
    (Fragment.mk [] (List.range' lo n) c).Binds lo n [] where
  ordered := Assoc.sorted_nil
  get? _ := rfl
  listed := by simp
  vars := by simp
  nodup := List.nodup_range'

theorem Binds.after (hg : g.Binds (lo + n) k cs) (c : Constraint) :
    ((Fragment.mk [] (List.range' lo n) c).join g).Binds lo (n + k) cs := by
  have h := (Binds.head lo n c).join hg (.inl ⟨rfl, rfl⟩)
  rwa [List.append_nil] at h

theorem Binds.below (hf : f.Binds (lo + n) k bs) : f.Binds lo (n + k) bs :=
  { hf with vars := fun v hv => by have hrange := hf.vars v hv; omega }

structure BindAll (lo n : Nat) (bs : List (String × Var)) (fs : List Fragment) : Prop where
  ordered : ∀ f ∈ fs, f.Ordered
  joinAll : (joinAll fs).Binds lo n bs

theorem BindAll.nil (lo : Nat) : BindAll lo 0 [] [] := ⟨by simp, .head lo 0 .trivial⟩

theorem BindAll.cons {fs : List Fragment} (hf : f.Binds lo n bs) (hfs : BindAll (lo + n) k cs fs) :
    BindAll lo (n + k) (bs ++ cs) (f :: fs) := by
  refine ⟨List.forall_mem_cons.mpr ⟨hf.ordered, hfs.ordered⟩, ?_⟩
  rw [← List.singleton_append, joinAll_append hfs.ordered, joinAll_singleton hf.ordered,
    Nat.add_comm]
  exact hfs.joinAll.join hf (.inr ⟨rfl, rfl⟩)

end Fragment

namespace Generate

variable {α β : Type} {env : Environment} {m : Generate α} {lo n k : Nat} {Q : α → Prop}

/-- Where a part of the walk that starts with `lo` variables succeeds, it has made the `n` next ones,
all at the rank of the walk, and `Q` holds of its result. -/
def Allots (lo : Nat) (m : Generate α) (n : Nat) (Q : α → Prop) : Prop :=
  ∀ g a g', g.store.size = lo → m g = .ok a g' → g'.rank = g.rank ∧ g'.store.size = lo + n ∧
    g.store.Continues g'.store ∧ (∀ v : Nat, lo ≤ v → v < lo + n → g'.store.Made v g.rank) ∧ Q a

namespace Allots

theorem pure {a : α} (h : Q a) : Allots lo (Pure.pure a) 0 Q := by
  rintro g _ _ rfl ⟨⟩
  exact ⟨rfl, rfl, .refl _, fun v hv hv' => absurd hv' (Nat.not_lt.mpr hv), h⟩

variable {R : β → Prop}

theorem bind {f : α → Generate β} {total : Nat} (hm : Allots lo m n Q)
    (hf : ∀ a, Q a → Allots (lo + n) (f a) k R) (htotal : n + k = total := by omega) :
    Allots lo (m >>= f) total R := by
  intro g b g2 hlo hrun
  obtain ⟨a, g1, ha, hb⟩ := bind_eq_ok hrun
  obtain ⟨hrank, hsize, hcont, hmade, hQ⟩ := hm g a g1 hlo ha
  obtain ⟨hrank2, hsize2, hcont2, hmade2, hR⟩ := hf a hQ g1 b g2 hsize hb
  refine ⟨hrank2.trans hrank, by omega, hcont.trans hcont2, fun v hv hv' => ?_, hR⟩
  rcases Nat.lt_or_ge v (lo + n) with hlt | hge
  · exact (hmade v hv hlt).continues hcont2
  · exact hrank ▸ hmade2 v hge (by omega)

theorem map {h : α → β} (hm : Allots lo m n Q) (hR : ∀ a, Q a → R (h a)) :
    Allots lo (m >>= fun a => Pure.pure (h a)) n R :=
  hm.bind fun a ha => .pure (hR a ha)

end Allots

theorem fresh_allots (lo : Nat) : Allots lo fresh 1 fun v => v = lo := by
  rintro g _ _ rfl ⟨⟩
  refine ⟨rfl, Store.fresh_size .., Store.continues_fresh _ _ _, fun v hv hv' => ?_, rfl⟩
  obtain rfl : v = g.store.size := by omega
  exact Store.made_fresh ..

theorem freshVars_allots (n lo : Nat) :
    Allots lo (freshVars n) n fun vs => vs = List.range' lo n := by
  induction n generalizing lo with
  | zero => exact .pure rfl
  | succ n ih =>
    exact (fresh_allots lo).bind fun v hv => (ih (lo + 1)).map fun vs hvs => by
      rw [hv, hvs, List.range'_succ]

theorem constructor_allots (name : String) (span : Span) (lo : Nat) :
    Allots lo (constructor env name span) (env.arity name) fun _ => True := by
  rintro g r g' rfl hrun
  obtain ⟨c, args, hget, _, rfl, rfl⟩ := constructor_eq_ok.mp hrun
  obtain ⟨hvars, hsize⟩ := Store.freshNamed_range g.rank c.params g.store
  obtain ⟨hcont, _, hmade⟩ := Store.freshNamed_made g.rank c.params g.store
  have harity : env.arity name = c.params.length := by rw [Environment.arity, hget]
  refine ⟨rfl, by rw [harity, hsize], hcont, fun v hv hv' => hmade v ?_, .intro⟩
  rw [hvars, List.mem_range'_1, ← harity]
  exact ⟨hv, hv'⟩

/-- Of fields with one name the last decides. -/
theorem fieldBindings_allots (names : List String) (lo : Nat) :
    Allots lo (fieldBindings names) names.length
      (Fragment.BindAll lo names.length (names.zipIdx lo)) := by
  induction names generalizing lo with
  | nil => exact .pure (.nil lo)
  | cons name names ih =>
    refine (fresh_allots lo).bind (fun v hv => (ih (lo + 1)).map fun fs hfs => ?_)
      (Nat.add_comm 1 names.length)
    rw [hv, List.zipIdx_cons, List.length_cons, Nat.add_comm]
    exact .cons (.binding name lo .trivial) hfs

mutual

theorem pattern_allots : ∀ (p : Pattern) (expected : Ty) (lo : Nat),
    Allots lo (pattern env p expected) (p.width env)
      (Fragment.Binds lo (p.width env) (p.binders env lo))
  | ⟨span, form⟩, expected, lo => by
    exact patternForm_allots span form expected lo

theorem patternForm_allots (span : Span) : ∀ (p : PatternForm) (expected : Ty) (lo : Nat),
    Allots lo (patternForm env span p expected) (p.width env)
      (Fragment.Binds lo (p.width env) (p.binders env lo))
  | .wildcard, expected, lo => by
    exact .pure (.head lo 0 .trivial)
  | .var name, expected, lo => by
    exact (fresh_allots lo).map fun v hv => hv ▸ .binding name v _
  | .literal value, expected, lo => by
    exact .pure (.head lo 0 _)
  | .ctor name args, expected, lo => by
    simp only [patternForm, PatternForm.width, PatternForm.binders]
    refine (constructor_allots name span lo).bind (k := args.length + patternsWidth env args)
      fun r _ => (freshVars_allots args.length _).bind (k := patternsWidth env args)
      fun vars hvars => ?_
    have hlen : args.length = (vars.map Ty.var).length := by simp [hvars]
    refine (patterns_allots args _ hlen _).map fun fs hfs => ?_
    rw [hvars]
    exact (hfs.joinAll.after _).below
  | .record fields, expected, lo => by
    simp only [patternForm, PatternForm.width, PatternForm.binders]
    refine (fresh_allots lo).bind fun ext hext => (fieldBindings_allots fields (lo + 1)).map
      fun fs hfs => ?_
    rw [hext]
    exact hfs.joinAll.after _
  | .named inner name, expected, lo => by
    simp only [patternForm, PatternForm.width, PatternForm.binders]
    refine (fresh_allots lo).bind fun v hv => (pattern_allots inner expected (lo + 1)).map
      fun f hf => ?_
    rw [hv]
    exact (Fragment.Binds.binding name lo _).join hf (.inl ⟨rfl, rfl⟩)

theorem patterns_allots : ∀ (ps : List Pattern) (ts : List Ty), ps.length = ts.length → ∀ lo : Nat,
    Allots lo (patterns env ps ts) (patternsWidth env ps)
      (Fragment.BindAll lo (patternsWidth env ps) (patternsBinders env ps lo))
  | [], [], _, lo => by
    exact .pure (.nil lo)
  | p :: ps, t :: ts, h, lo => by
    simp only [patterns, patternsWidth, patternsBinders]
    exact (pattern_allots p t lo).bind fun f hf =>
      (patterns_allots ps ts (Nat.succ.inj h) _).map fun fs hfs => .cons hf hfs

end

/-- The fragment of a pattern is well formed. It binds the names that the pattern introduces and no
others, each to one of its variables. These are different from each other, and all of them were made
for this pattern at the rank of the walk. Where names are repeated, the variable is that of the last
one in the order of writing: a name that is given to a pattern decides against those inside, and a
later pattern or field against an earlier one. A pattern that comes later shares no variable with
it. -/
theorem pattern_wellFormed {p : Pattern} {expected : Ty} {g g' : Generator} {f : Fragment}
    (h : pattern env p expected g = .ok f g') :
    (∀ x, x ∈ Assoc.keys f.env ↔ x ∈ p.names) ∧
    (∀ e ∈ f.env, ∃ v ∈ f.vars, e.2 = .var v) ∧
    f.vars.Nodup ∧
    (∀ v ∈ f.vars, g.store.size ≤ v ∧ v < g'.store.size ∧ g'.store.Made v g.rank) ∧
    (∀ x, Assoc.get? f.env x = (Assoc.get? (p.binders env g.store.size).reverse x).map Ty.var) ∧
    ∀ (q : Pattern) (t : Ty) (g1 g2 : Generator) (f' : Fragment),
      g'.store.size ≤ g1.store.size → pattern env q t g1 = .ok f' g2 →
        f.vars.Disjoint f'.vars := by
  obtain ⟨_, hsize, _, hmade, hbinds⟩ := pattern_allots p expected _ g f g' rfl h
  refine ⟨fun x => ?_, fun e he => ?_, hbinds.nodup, fun v hv => ?_, hbinds.get?,
    fun q t g1 g2 f' hle hq v hv hv' => ?_⟩
  · rw [← p.mem_keys_binders env g.store.size, ← not_iff_not, ← Assoc.get?_eq_none_iff, hbinds.get?,
      Option.map_eq_none_iff, Assoc.get?_eq_none_iff]
    simp [Assoc.keys]
  · obtain ⟨x, t⟩ := e
    have hget := Assoc.get?_of_mem hbinds.ordered he
    rw [hbinds.get?] at hget
    obtain ⟨v, hv, rfl⟩ := Option.map_eq_some_iff.mp hget
    exact ⟨v, hbinds.listed (x, v) (List.mem_reverse.mp (Assoc.mem_of_get? hv)), rfl⟩
  · obtain ⟨hlo, hhi⟩ := hbinds.vars v hv
    exact ⟨hlo, hsize ▸ hhi, hmade v hlo hhi⟩
  · obtain ⟨_, _, _, _, hbinds'⟩ := pattern_allots q t _ g1 f' g2 rfl hq
    have hlt := (hbinds.vars v hv).2
    have hge := (hbinds'.vars v hv').1
    omega

def pairs : Environment where
  constructors := [("Pair", ⟨"Pair", ["a", "b"], [.var "a", .var "b"]⟩)]

/-- A pair that is called `x`, of a record with the fields `x`, `y` and again `x`, and of an `x` that
is called `y`. -/
def shadowing : Pattern :=
  ⟨{}, .named ⟨{}, .ctor "Pair" [⟨{}, .record ["x", "y", "x"]⟩,
    ⟨{}, .named ⟨{}, .var "x"⟩ "y"⟩]⟩ "x"⟩

theorem pairs_readable : pairs.Readable := by
  intro e he vars hlen
  obtain rfl := List.mem_singleton.mp he
  obtain ⟨v, w, rfl⟩ := List.length_eq_two.mp hlen
  exact ⟨_, rfl⟩

theorem exists_pattern (henv : env.Readable) {p : Pattern}
    (hp : ∀ o ∈ p.constructors, o.1 ∈ Assoc.keys env.constructors) (expected : Ty)
    (g : Generator) : ∃ f g', pattern env p expected g = .ok f g' := by
  have hchecked := pattern_checked henv p expected g
  split at hchecked
  · rename_i f g' hok
    exact ⟨f, g', hok⟩
  · obtain ⟨o, ho, hunknown, _⟩ := hchecked
    exact absurd (hp o ho) hunknown

/-- The pair decides about `x`, and about `y` its second part. -/
theorem pattern_wellFormed_shadowing : ∃ f g',
    pattern pairs shadowing .int { store := {}, rank := 2 } = .ok f g' ∧ f.vars.Nodup ∧
    Assoc.get? f.env "x" = some (.var 0) ∧ Assoc.get? f.env "y" = some (.var 9) := by
  obtain ⟨f, g', hrun⟩ := exists_pattern pairs_readable (p := shadowing) (by decide) .int
    { store := {}, rank := 2 }
  obtain ⟨_, _, hnodup, _, hget, _⟩ := pattern_wellFormed hrun
  exact ⟨f, g', hrun, hnodup, hget "x", hget "y"⟩

end Generate
end TypeSolver
