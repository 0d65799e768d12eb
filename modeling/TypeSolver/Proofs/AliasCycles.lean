import TypeSolver.Proofs.Runs

/-!
# TypeSolver.Proofs.AliasCycles

Which tables of aliases are refused, and what the others are good for. The body of an alias leads to
every constructor that it mentions, at any depth. The search for a circle needs no more rounds than
there are aliases; it finds exactly the names that an alias leads to (`mem_reached_iff`), and so it
names the least alias that leads to itself, if there is one (`findCycle_exact`).

Where no alias leads to itself, expanding the head of a type comes to an end, although arguments may
be aliases themselves and may be repeated or dropped on the way. In a store over such a table, in
which no class leads to itself either, every type can be read (`expansion_ends`).
-/

namespace TypeSolver

open Relation

/-- The signature mentions the constructor `c`, at its head or inside. -/
inductive Signature.Mentions (c : String) : Signature → Prop where
  | head {args : List Signature} : Mentions c (.con c args)
  | arg {name : String} {args : List Signature} {a : Signature} : a ∈ args → Mentions c a →
      Mentions c (.con name args)
  | domain {arg ret : Signature} : Mentions c arg → Mentions c (.func arg ret)
  | codomain {arg ret : Signature} : Mentions c ret → Mentions c (.func arg ret)
  | field {fields : List (String × Signature)} {ext : Option String} {f : String × Signature} :
      f ∈ fields → Mentions c f.2 → Mentions c (.record fields ext)

theorem Signature.mem_constructors_iff {c : String} {e : Signature} :
    c ∈ e.constructors ↔ e.Mentions c := by
  constructor
  · induction e with
    | var x => intro h; simp [constructors] at h
    | con name args ih =>
      intro h
      rw [constructors, List.mem_cons, mem_constructorsList] at h
      rcases h with rfl | ⟨a, ha, hc⟩
      · exact .head
      · exact .arg ha (ih a ha hc)
    | func arg ret iha ihr =>
      intro h
      rw [constructors, List.mem_append] at h
      exact h.elim (fun h => .domain (iha h)) fun h => .codomain (ihr h)
    | record fields ext ih =>
      intro h
      rw [constructors, mem_constructorsFields] at h
      obtain ⟨f, hf, hc⟩ := h
      exact .field hf (ih f hf hc)
  · intro h
    induction h with
    | head => simp [constructors]
    | arg ha _ ih => rw [constructors, List.mem_cons, mem_constructorsList]; exact .inr ⟨_, ha, ih⟩
    | domain _ ih => simp [constructors, ih]
    | codomain _ ih => simp [constructors, ih]
    | field hf _ ih => rw [constructors, mem_constructorsFields]; exact ⟨_, hf, ih⟩

namespace AliasTable

variable {table : AliasTable}

/-- There is an alias `a`, and its body mentions `b`. -/
def Leads (table : AliasTable) (a b : String) : Prop :=
  ∃ entry, (a, entry) ∈ table ∧ entry.body.Mentions b

def OnCycle (table : AliasTable) (name : String) : Prop := TransGen table.Leads name name

theorem mem_mentions_iff (hs : Assoc.Sorted table) {a b : String} :
    b ∈ table.mentions a ↔ table.Leads a b := by
  rw [mentions]
  constructor
  · intro h
    split at h
    · rename_i entry hget
      exact ⟨entry, Assoc.mem_of_get? hget, Signature.mem_constructors_iff.mp h⟩
    · cases h
  · rintro ⟨entry, hmem, hb⟩
    rw [Assoc.get?_of_mem hs hmem]
    exact Signature.mem_constructors_iff.mpr hb

variable {fuel : Nat} {c name : String} {seen pending : List String}

theorem reached_of_mem_explore
    (hpending : ∀ p ∈ pending, ReflTransGen (fun a b => b ∈ table.mentions a) name p)
    (hseen : ∀ x ∈ seen, TransGen (fun a b => b ∈ table.mentions a) name x)
    (hc : c ∈ explore table fuel pending seen) :
    TransGen (fun a b => b ∈ table.mentions a) name c := by
  induction fuel generalizing pending seen with
  | zero => exact hseen c hc
  | succ fuel ih =>
    rw [explore] at hc
    split at hc
    · exact hseen c hc
    · have hfound : ∀ x ∈ ((pending.flatMap (mentions table)).eraseDups.filter fun name =>
          name ∉ seen), TransGen (fun a b => b ∈ table.mentions a) name x := fun x hx => by
        obtain ⟨⟨p, hp, hpx⟩, _⟩ := mem_found.mp hx
        exact .tail' (hpending p hp) hpx
      refine ih (fun x hx => (hfound x hx).to_reflTransGen) (fun x hx => ?_) hc
      exact (List.mem_append.mp hx).elim (hseen x) (hfound x)

theorem mem_reached_iff :
    c ∈ reached table name ↔ TransGen (fun a b => b ∈ table.mentions a) name c := by
  refine ⟨fun h => reached_of_mem_explore (fun p hp => ?_) (fun x hx => by cases hx) h, mem_reached⟩
  rw [List.mem_singleton.mp hp]

theorem explore_succ (h : table.Rounds fuel pending seen) :
    explore table (fuel + 1) pending seen = explore table fuel pending seen := by
  induction fuel generalizing pending seen with
  | zero =>
    conv_lhs => rw [explore]
    split
    · rfl
    · rename_i hne
      refine absurd (List.eq_nil_iff_forall_not_mem.mpr fun c hc => ?_) hne
      obtain ⟨⟨p, hp, hpc⟩, _⟩ := mem_found.mp hc
      exact h.not_mentions hp hpc
  | succ fuel ih =>
    conv_lhs => rw [explore]
    conv_rhs => rw [explore]
    split
    · rfl
    · exact ih (h.next fun c => mem_found)

theorem explore_eq_reached (h : table.length < fuel) (name : String) :
    explore table fuel [name] [] = reached table name := by
  induction h with
  | refl => rfl
  | step h ih => rw [explore_succ (.start table h name), ih]

theorem find?_eq_some_iff_least {names : List String} (h : names.Pairwise (· < ·))
    {p : String → Bool} : names.find? p = some name ↔
      (name ∈ names ∧ p name) ∧ ∀ other ∈ names, p other → other = name ∨ name < other := by
  have hleast : ∀ {name}, names.find? p = some name →
      ∀ other ∈ names, p other → other = name ∨ name < other := by
    intro name hfind other hmem hp
    obtain ⟨_, before, after, rfl, hbefore⟩ := List.find?_eq_some_iff_append.mp hfind
    rcases List.mem_append.mp hmem with hmem | hmem
    · exact absurd hp (by simpa using hbefore other hmem)
    · rcases List.mem_cons.mp hmem with rfl | hmem
      · exact .inl rfl
      · exact .inr (List.rel_of_pairwise_cons (List.pairwise_append.mp h).2.1 hmem)
  refine ⟨fun hfind => ⟨⟨List.mem_of_find?_eq_some hfind, List.find?_some hfind⟩, hleast hfind⟩, ?_⟩
  rintro ⟨⟨hmem, hp⟩, hmin⟩
  obtain ⟨found, hfind⟩ := Option.isSome_iff_exists.mp (List.find?_isSome.mpr ⟨name, hmem, hp⟩)
  rw [hfind]
  rcases hleast hfind name hmem hp with heq | hlt
  · rw [heq]
  · rcases hmin found (List.mem_of_find?_eq_some hfind) (List.find?_some hfind) with rfl | hlt'
    · rfl
    · exact absurd (String.lt_trans hlt hlt') (String.lt_irrefl found)

/-- For every table of aliases, the search for a circle ends: after one round more than there are
aliases, a further round finds nothing. There is an answer exactly if some name leads to itself
through the constructors that bodies mention, and then the answer is the least such name. -/
theorem findCycle_exact {table : AliasTable} (hs : Assoc.Sorted table) :
    (∀ name fuel, table.length < fuel → explore table fuel [name] [] = reached table name) ∧
    (table.findCycle = none ↔ ∀ name, ¬ table.OnCycle name) ∧
    ∀ name, table.findCycle = some name ↔
      table.OnCycle name ∧ ∀ other, table.OnCycle other → other = name ∨ name < other := by
  have hiff : ∀ name, decide (name ∈ reached table name) = true ↔ table.OnCycle name := fun name => by
    simp only [decide_eq_true_eq, mem_reached_iff, mem_mentions_iff hs, OnCycle]
  have hkey : ∀ name, table.OnCycle name → name ∈ Assoc.keys table := fun name hname => by
    obtain ⟨_, hstep, _⟩ := TransGen.head'_iff.mp hname
    exact mem_keys_of_mentions ((mem_mentions_iff hs).mpr hstep)
  refine ⟨fun name _ h => explore_eq_reached h name, ?_, fun name => ?_⟩
  · rw [findCycle, List.find?_eq_none]
    simp only [hiff]
    exact ⟨fun h name hname => h name (hkey name hname) hname, fun h name _ => h name⟩
  · rw [findCycle, find?_eq_some_iff_least hs]
    simp only [hiff]
    exact and_congr ⟨And.right, fun h => ⟨hkey name h, h⟩⟩
      ⟨fun h other ho => h other (hkey other ho) ho, fun h other _ => h other⟩

/-- `B` is a list of `C`, `C` a function to records of `B`, and `A` a pair of an unknown type and
`B`. -/
def twoMutual : AliasTable :=
  [("A", ⟨[], .con "Pair" [.con "Unknown" [], .con "B" []]⟩),
    ("B", ⟨["x"], .con "List" [.con "C" [.var "x"]]⟩),
    ("C", ⟨["x"], .func (.var "x") (.record [("b", .con "B" [])] none)⟩)]

/-- The least alias on a circle is `B`: `A` leads there, but nothing leads back. -/
theorem findCycle_exact_twoMutual : Assoc.Sorted twoMutual ∧ twoMutual.findCycle = some "B" ∧
    twoMutual.OnCycle "B" ∧ ¬ twoMutual.OnCycle "A" := by
  have hs : Assoc.Sorted twoMutual := by simp only [Assoc.Sorted]; decide
  have hfind : twoMutual.findCycle = some "B" := by decide
  obtain ⟨hcycle, hleast⟩ := ((findCycle_exact hs).2.2 "B").mp hfind
  refine ⟨hs, hfind, hcycle, fun hA => ?_⟩
  exact absurd (hleast "A" hA) (by decide)

end AliasTable

namespace Store

variable {s : Store}

theorem Ends.exists_head {t : Ty} (h : s.Ends t) :
    ∃ hd, EnoughFuel fun k => s.aliases.head k t = some hd := by
  induction h with
  | bound | poisoned | unbound => exact ⟨_, .of_succ (.intro fun k => rfl)⟩
  | func | record => exact ⟨_, .of_succ (.intro fun k => rfl)⟩
  | expanded hex _ ih =>
    obtain ⟨hd, ih⟩ := ih
    exact ⟨hd, .of_succ (ih.mono fun k hk => by simp only [AliasTable.head, hex, hk])⟩
  | @app name args hne _ _ =>
    cases hex : s.aliases.expand name args with
    | none =>
      exact ⟨.settled (.app name args), .of_succ (.intro fun k => by
        simp only [AliasTable.head, hex])⟩
    | some r =>
      cases r with
      | ok t => exact absurd hex (hne t)
      | error e =>
        exact ⟨.stuck (.app name args), .of_succ (.intro fun k => by
          simp only [AliasTable.head, hex])⟩

theorem Ends.exists_read {t : Ty} (h : s.Ends t) (nm : Naming) :
    ∃ n nm', EnoughFuel fun k => (s.readType k t).run nm = some (n, nm') := by
  obtain ⟨k0, hread⟩ := h.readable
  obtain ⟨n, nm', hrun⟩ := hread k0 le_rfl nm
  refine ⟨n, nm', k0, fun k hk => ?_⟩
  induction hk with
  | refl => exact hrun
  | step _ ih => exact readType_succ ih

end Store

namespace AliasTable

variable {table : AliasTable}

theorem length_ne_of_head {n : Nat} {t : Ty} {name : String} {args : List Ty}
    (h : table.head n t = some (.settled (.app name args))) {entry : Alias}
    (hget : Assoc.get? table name = some entry) : entry.params.length ≠ args.length := by
  refine head_induction (P := fun _ => entry.params.length ≠ args.length) h (fun _ heq hex hlen => ?_)
    (fun _ heq => by cases heq) fun _ _ _ _ ih => ih
  cases heq
  have hnone := hex name args rfl
  simp [expand, hget, hlen] at hnone

/-- Where no alias leads to itself, the head of every type comes to an end: it is refused, or it is
no alias that is applied to its number of parameters. And every type can be read off every store over
the table in which no class leads to itself, whatever names were given before. -/
theorem expansion_ends {table : AliasTable} (h : table.findCycle = none) :
    (∀ t, ∃ hd, (EnoughFuel fun k => table.head k t = some hd) ∧
      ∀ name args entry, hd = .settled (.app name args) → Assoc.get? table name = some entry →
        entry.params.length ≠ args.length) ∧
    ∀ s : Store, s.aliases = table → s.Forest → s.Acyclic → ∀ t nm, ∃ n nm',
      EnoughFuel fun k => (s.readType k t).run nm = some (n, nm') := by
  have hends : ∀ s : Store, s.aliases = table → s.Forest → s.Acyclic → ∀ t, s.Ends t :=
    fun s hs hf hac => (Store.acyclic_iff.mp hac).ends hf (hs ▸ grounded_of_findCycle h)
  refine ⟨fun t => ?_, fun s hs hf hac t nm => (hends s hs hf hac t).exists_read nm⟩
  -- heads do not depend on a store, so the empty one will do
  obtain ⟨hd, hhead⟩ := (hends (.blank table 0) rfl (Store.blank_view table 0).1
    (Store.acyclic_blank table 0) t).exists_head
  refine ⟨hd, hhead, ?_⟩
  rintro name args entry rfl hget
  obtain ⟨k, hk⟩ := hhead.exists_fuel
  exact length_ne_of_head hk hget

/-- An alias for its argument, one that drops an argument, and one that repeats its argument. -/
def nestedAliases : AliasTable :=
  [("First", ⟨["a", "b"], .var "a"⟩), ("Same", ⟨["a"], .var "a"⟩),
    ("Twice", ⟨["a"], .con "First" [.con "Pair" [.con "Same" [.var "a"], .var "a"], .var "a"]⟩)]

def nestedStore : Store :=
  (Store.blank nestedAliases 2).put 0 (.bound (.app "Twice" [.app "Same" [.var 1]]))

/-- The head of `Twice (Twice a)` is a pair after two expansions, and the type can be read. -/
theorem expansion_ends_nested : nestedAliases.findCycle = none ∧
    nestedStore.Forest ∧ nestedStore.Acyclic ∧
    (∃ hd, EnoughFuel fun k => nestedAliases.head k (.app "Twice" [.app "Twice" [.var 0]]) = some hd) ∧
    ∃ n nm', EnoughFuel fun k =>
      (nestedStore.readType k (.app "Twice" [.app "Twice" [.var 0]])).run {} = some (n, nm') := by
  have hcycle : nestedAliases.findCycle = none := by decide
  have hsize : (Store.blank nestedAliases 2).size = 2 := rfl
  have hfits : (Ty.app "Twice" [.app "Same" [.var 1]]).Fits (Store.blank nestedAliases 2).size := by
    simp [Ty.Fits, Ty.over_app, Ty.over_var, hsize]
  have hformed := Store.formed_blank nestedAliases 2
  have hforest : nestedStore.Forest := (Store.put_view hformed.forest (by decide) (by decide) _).1
  have hacyclic : nestedStore.Acyclic := Store.acyclic_iff.mpr (Store.grounded_put_bound
    (Store.acyclic_iff.mp (Store.acyclic_blank nestedAliases 2)) hformed (by decide) (by decide)
    hfits (by decide))
  obtain ⟨hhead, hread⟩ := expansion_ends hcycle
  obtain ⟨hd, hd', _⟩ := hhead (.app "Twice" [.app "Twice" [.var 0]])
  exact ⟨hcycle, hforest, hacyclic, ⟨hd, hd'⟩, hread nestedStore rfl hforest hacyclic _ {}⟩

end AliasTable
end TypeSolver
