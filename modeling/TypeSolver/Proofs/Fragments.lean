import TypeSolver.Proofs.Walks

/-!
# TypeSolver.Proofs.Fragments

Fragments form a monoid. A conjunction is determined by its parts and by whether it demands anything
at all, so it can be bracketed in any way (`Constraint.and_assoc`); maps that are joined with a bias
can too (`Assoc.union_assoc`). A list of fragments is joined from its last to its first
(`Fragment.joinAll_cons`), and each component of the result is read off the list.
-/

namespace TypeSolver

namespace Constraint

@[simp] theorem trivial_and (c : Constraint) : trivial.and c = c := rfl

@[simp] theorem and_trivial (c : Constraint) : c.and trivial = c := by
  cases c <;> rfl

theorem and_eq_conj {c d : Constraint} (hc : c ≠ trivial) (hd : d ≠ trivial) :
    c.and d = conj (c.parts ++ d.parts) := by
  cases c with
  | trivial => exact absurd rfl hc
  | conj cs =>
    cases d with
    | trivial => exact absurd rfl hd
    | _ => rfl
  | _ =>
    cases d with
    | trivial => exact absurd rfl hd
    | _ => rfl

theorem and_ne_trivial {c d : Constraint} (hc : c ≠ trivial) : c.and d ≠ trivial := by
  by_cases hd : d = trivial
  · rwa [hd, and_trivial]
  · simp [and_eq_conj hc hd]

theorem and_assoc (c d e : Constraint) : (c.and d).and e = c.and (d.and e) := by
  by_cases hc : c = trivial
  · rw [hc, trivial_and, trivial_and]
  by_cases hd : d = trivial
  · rw [hd, and_trivial, trivial_and]
  by_cases he : e = trivial
  · rw [he, and_trivial, and_trivial]
  rw [and_eq_conj (and_ne_trivial hc) he, and_eq_conj hc (and_ne_trivial hd), parts_and, parts_and,
    List.append_assoc]

instance : Std.Associative and := ⟨and_assoc⟩

instance : Std.LawfulIdentity and trivial where
  left_id := trivial_and
  right_id := and_trivial

theorem all_eq_foldr (cs : List Constraint) : all cs = cs.foldr and trivial :=
  List.foldr_eq_foldl.symm

theorem all_cons (c : Constraint) (cs : List Constraint) : all (c :: cs) = c.and (all cs) := by
  rw [all_eq_foldr, all_eq_foldr, List.foldr_cons]

end Constraint

namespace Fragment

/-- The names of a fragment stand in order, as in every map. -/
def Ordered (f : Fragment) : Prop := Assoc.Sorted f.env

variable {a b c : Fragment} {f : Fragment} {fs xs ys : List Fragment}

theorem ordered_empty : empty.Ordered := Assoc.sorted_nil

theorem Ordered.join (hb : b.Ordered) : (a.join b).Ordered := Assoc.sorted_union hb

theorem ordered_joinAll (fs : List Fragment) : (joinAll fs).Ordered :=
  joinAll_induction (Q := fun _ => True) ordered_empty (fun _ _ _ h => h.join) fun _ _ => .intro

theorem join_assoc (ha : a.Ordered) (hb : b.Ordered) (hc : c.Ordered) :
    (a.join b).join c = a.join (b.join c) := by
  simp only [join, Assoc.union_assoc ha hb hc, List.append_assoc, Constraint.and_assoc]

theorem empty_join (a : Fragment) : empty.join a = a := rfl

theorem join_empty (ha : a.Ordered) : a.join empty = a := by
  simp only [join, empty, Assoc.union_nil ha, List.append_nil, Constraint.and_trivial]

theorem joinAll_concat (fs : List Fragment) (f : Fragment) :
    joinAll (fs ++ [f]) = f.join (joinAll fs) := by
  rw [joinAll, List.foldl_append]
  rfl

theorem joinAll_append (hys : ∀ f ∈ ys, f.Ordered) :
    joinAll (xs ++ ys) = (joinAll ys).join (joinAll xs) := by
  induction ys using List.reverseRecOn with
  | nil => rw [List.append_nil]; rfl
  | append_singleton ys f ih =>
    have hf : f.Ordered := hys f (by simp)
    rw [← List.append_assoc, joinAll_concat, joinAll_concat, ih fun g hg => hys g (by simp [hg]),
      join_assoc hf (ordered_joinAll ys) (ordered_joinAll xs)]

theorem joinAll_singleton (hf : f.Ordered) : joinAll [f] = f := join_empty hf

theorem get?_joinAll (h : ∀ f ∈ fs, f.Ordered) (name : String) :
    Assoc.get? (joinAll fs).env name = fs.reverse.findSome? fun f => Assoc.get? f.env name := by
  induction fs using List.reverseRecOn with
  | nil => rfl
  | append_singleton fs f ih =>
    have hf : f.Ordered := h f (by simp)
    rw [joinAll_concat, List.reverse_concat, List.findSome?_cons, join, Assoc.get?_union hf,
      ih fun g hg => h g (by simp [hg])]
    cases Assoc.get? f.env name <;> rfl

theorem vars_joinAll (fs : List Fragment) : (joinAll fs).vars = fs.reverse.flatMap vars := by
  induction fs using List.reverseRecOn with
  | nil => rfl
  | append_singleton fs f ih =>
    rw [joinAll_concat, List.reverse_concat, List.flatMap_cons, join, ih]

theorem constraint_joinAll (fs : List Fragment) :
    (joinAll fs).constraint = .all (fs.reverse.map constraint) := by
  induction fs using List.reverseRecOn with
  | nil => rfl
  | append_singleton fs f ih =>
    rw [joinAll_concat, List.reverse_concat, List.map_cons, Constraint.all_cons, join, ih]

theorem mem_keys_joinAll {name : String} :
    name ∈ Assoc.keys (joinAll fs).env ↔ ∃ f ∈ fs, name ∈ Assoc.keys f.env := by
  induction fs using List.reverseRecOn with
  | nil => simp [joinAll, empty, Assoc.keys]
  | append_singleton fs f ih =>
    rw [joinAll_concat, join, Assoc.mem_keys_union, ih]
    simp [or_comm, or_and_right, exists_or]

/-- A way to put brackets around the factors of a product, of which there may be none. -/
inductive Bracketing where
  | one
  | factor (f : Fragment)
  | product (l r : Bracketing)

namespace Bracketing

def factors : Bracketing → List Fragment
  | one => []
  | factor f => [f]
  | product l r => l.factors ++ r.factors

def value : Bracketing → Fragment
  | one => empty
  | factor f => f
  | product l r => l.value.join r.value

theorem value_eq_joinAll {t : Bracketing} (h : ∀ f ∈ t.factors, f.Ordered) :
    t.value = joinAll t.factors.reverse := by
  induction t with
  | one => rfl
  | factor f => exact (joinAll_singleton (h f (List.mem_singleton_self f))).symm
  | product l r ihl ihr =>
    have hl : ∀ f ∈ l.factors, f.Ordered := fun f hf => h f (List.mem_append_left _ hf)
    have hr : ∀ f ∈ r.factors, f.Ordered := fun f hf => h f (List.mem_append_right _ hf)
    rw [value, factors, List.reverse_append, joinAll_append (by simpa using hl), ihl hl, ihr hr]

end Bracketing

/-- Fragments form a monoid under `join`, with all of a conjunction kept as it is written. A list of
fragments is joined to the product of its reverse, however that is bracketed: of several fragments
that bind a name the last one decides, the variables come in reverse order of fragments, and the
demands are conjoined in reverse order too. Conjunction itself is a monoid, so that it does not
matter from which end `all` folds. -/
theorem joinAll_reversed_product {t : Bracketing} (ha : a.Ordered) (hb : b.Ordered)
    (hc : c.Ordered) (hxs : ∀ f ∈ xs, f.Ordered) (hys : ∀ f ∈ ys, f.Ordered)
    (ht : t.factors = xs.reverse) :
    (a.join b).join c = a.join (b.join c) ∧ empty.join a = a ∧ a.join empty = a ∧
    joinAll xs = t.value ∧ joinAll (xs ++ ys) = (joinAll ys).join (joinAll xs) ∧
    (∀ name, Assoc.get? (joinAll xs).env name =
      xs.reverse.findSome? fun f => Assoc.get? f.env name) ∧
    (joinAll xs).vars = xs.reverse.flatMap vars ∧
    (joinAll xs).constraint = .all (xs.reverse.map constraint) ∧
    (∀ p q r : Constraint, (p.and q).and r = p.and (q.and r)) ∧
    (∀ p : Constraint, Constraint.trivial.and p = p ∧ p.and .trivial = p) ∧
    ∀ ps : List Constraint, Constraint.all ps = ps.foldl Constraint.and .trivial ∧
      Constraint.all ps = ps.foldr Constraint.and .trivial := by
  refine ⟨join_assoc ha hb hc, empty_join a, join_empty ha, ?_, joinAll_append hys,
    get?_joinAll hxs, vars_joinAll xs, constraint_joinAll xs, Constraint.and_assoc,
    fun p => ⟨Constraint.trivial_and p, Constraint.and_trivial p⟩,
    fun ps => ⟨rfl, Constraint.all_eq_foldr ps⟩⟩
  have hfactors : ∀ f ∈ t.factors, f.Ordered := by
    rw [ht]
    exact fun f hf => hxs f (List.mem_reverse.mp hf)
  rw [Bracketing.value_eq_joinAll hfactors, ht, List.reverse_reverse]

def ground (name : String) (t : Ty) (v : Var) : Fragment := ⟨[(name, t)], [v], .conj []⟩

theorem ordered_ground (name : String) (t : Ty) (v : Var) : (ground name t v).Ordered :=
  List.pairwise_singleton _ _

/-- Three fragments bind one name. The last one decides, and a conjunction of nothing stays one
when others join it. -/
theorem joinAll_reversed_product_thrice :
    (ground "x" .int 0).Ordered ∧
    joinAll [ground "x" .int 0, ground "x" .string 0, ground "x" .bool 1] =
      (ground "x" .bool 1).join ((ground "x" .string 0).join (ground "x" .int 0)) ∧
    Assoc.get? (joinAll [ground "x" .int 0, ground "x" .string 0, ground "x" .bool 1]).env "x" =
      some .bool ∧
    (joinAll [ground "x" .int 0, ground "x" .string 0, ground "x" .bool 1]).vars = [1, 0, 0] ∧
    (joinAll [ground "x" .int 0, ground "x" .string 0, ground "x" .bool 1]).constraint =
      .conj [] := by
  have hordered : ∀ f ∈ [ground "x" .int 0, ground "x" .string 0, ground "x" .bool 1],
      f.Ordered := by
    simp [ordered_ground]
  have hnone : ∀ f ∈ ([] : List Fragment), f.Ordered := by simp
  obtain ⟨_, _, _, hproduct, _, hname, hvars, hconstraint, _⟩ :=
    joinAll_reversed_product (ordered_ground "x" .int 0) (ordered_ground "y" .int 0)
      (ordered_ground "z" .int 0) hordered hnone
      (t := .product (.factor (ground "x" .bool 1))
        (.product (.factor (ground "x" .string 0)) (.factor (ground "x" .int 0)))) rfl
  exact ⟨ordered_ground .., hproduct, hname "x", hvars, hconstraint⟩

end Fragment
end TypeSolver
