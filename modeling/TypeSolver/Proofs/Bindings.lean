import Mathlib.Order.Interval.Set.Nat
import TypeSolver.Proofs.Expansion
import TypeSolver.Proofs.Forest

/-!
# TypeSolver.Proofs.Bindings

The graph of bindings: a class has an edge to each class that is mentioned in the type it stands
for. `mem_reach` says that the search of the store finds exactly what the graph reaches, also
when bindings run in a circle.

A store is `Acyclic` when no class leads back to itself, which is the same as that the edges can
be followed only finitely often (`acyclic_iff`). Binding a class to a type that does not lead to
it keeps the graph acyclic (`grounded_put_bound`), and putting a class under another does so
exactly if the other does not lead to it (`acyclic_link_iff`).
-/

namespace TypeSolver
namespace Store

open Relation

/-- The class of `v` stands for a type that mentions a variable of the class of the root `r`. -/
def Edge (s : Store) (v r : Var) : Prop := ∃ t, s.kind v = .bound t ∧ ∃ w ∈ t.vars, s.root w = r

/-- The class of `v` is that of the root `r` or leads to it through bindings. -/
def Reaches (s : Store) (v r : Var) : Prop := ReflTransGen s.Edge (s.root v) r

def Acyclic (s : Store) : Prop := ∀ r, ¬ TransGen s.Edge r r

/-- The links form a forest, and bound classes stand for types over the store. -/
structure Formed (s : Store) : Prop where
  forest : s.Forest
  fits : ∀ v t, s.kind v = .bound t → t.Fits s.size

def Contained (s : Store) : Prop := ∀ v t, s.kind v = .bound t → t.Below s.size

structure Closed (s : Store) (I : Var → Prop) : Prop where
  lt : ∀ v, I v → v < s.size
  vars : ∀ v t, I v → s.kind v = .bound t → ∀ w ∈ t.vars, I w

variable {s s' : Store} {I : Var → Prop}

theorem Formed.contained (h : s.Formed) : s.Contained := fun v t hk => (h.fits v t hk).below

theorem Contained.closed (h : s.Contained) : s.Closed (· < s.size) :=
  ⟨fun _ hv => hv, fun v t _ hk => h v t hk⟩

theorem kind_root (h : s.Forest) (v : Var) : s.kind (s.root v) = s.kind v := by
  rw [kind, h.content_root, kind]

variable {a b r v : Var} {t : Ty} {vs seen : List Var}

theorem kind_eq_bound : s.kind v = .bound t ↔ s.content v = .bound t := by
  rw [kind]; cases s.content v <;> simp [Content.kind]

theorem kind_eq_poisoned : s.kind v = .poisoned ↔ s.content v = .poisoned := by
  rw [kind]; cases s.content v <;> simp [Content.kind]

theorem kind_eq_free : s.kind v = .free ↔ ∃ rank hint, s.content v = .unbound rank hint := by
  rw [kind]; cases s.content v <;> simp [Content.kind]

theorem lt_of_kind (hk : s.kind v ≠ .poisoned) : v < s.size := by
  by_contra hv
  exact hk (kind_eq_poisoned.mpr (Forest.root_of_size_le (Nat.le_of_not_lt hv)).2)

theorem edge_root (h : s.Forest) : s.Edge (s.root v) r ↔ s.Edge v r := by
  rw [Edge, kind_root h, Edge]

theorem Edge.lt (h : s.Formed) (he : s.Edge v r) : r < s.size := by
  obtain ⟨t, ht, w, hw, rfl⟩ := he
  exact h.forest.root_lt ((h.fits v t ht).lt hw)

theorem Edge.root_eq (h : s.Forest) (he : s.Edge v r) : s.root r = r := by
  obtain ⟨t, _, w, _, rfl⟩ := he
  exact h.root_root w

theorem Reaches.root_eq (h : s.Forest) (hr : s.Reaches v r) : s.root r = r := by
  rcases ReflTransGen.cases_tail hr with rfl | ⟨x, _, he⟩
  · exact h.root_root v
  · exact he.root_eq h

theorem Reaches.lt (h : s.Formed) (hv : v < s.size) (hr : s.Reaches v r) : r < s.size := by
  rcases ReflTransGen.cases_tail hr with rfl | ⟨x, _, he⟩
  · exact h.forest.root_lt hv
  · exact he.lt h

/-- How many variables of the store are not among `seen`. -/
def unseen (s : Store) (seen : List Var) : Nat :=
  ((Finset.range s.size).filter (· ∉ seen)).card

theorem unseen_le {seen' : List Var} (h : ∀ x ∈ seen, x ∈ seen') :
    s.unseen seen' ≤ s.unseen seen := by
  refine Finset.card_le_card fun x hx => ?_
  rw [Finset.mem_filter] at hx ⊢
  exact ⟨hx.1, fun hmem => hx.2 (h x hmem)⟩

theorem unseen_cons_lt (hr : r < s.size) (hn : r ∉ seen) :
    s.unseen (r :: seen) < s.unseen seen := by
  refine Finset.card_lt_card ((Finset.ssubset_iff_of_subset ?_).mpr ⟨r, ?_, ?_⟩)
  · intro x hx
    rw [Finset.mem_filter] at hx ⊢
    exact ⟨hx.1, fun hmem => hx.2 (.tail _ hmem)⟩
  · exact Finset.mem_filter.mpr ⟨Finset.mem_range.mpr hr, hn⟩
  · simp

/-- What a search from the variables `vs` that already knew `seen` has found: it goes on from
every root that it added. -/
structure Visited (s : Store) (seen vs found : List Var) : Prop where
  keeps : ∀ x ∈ seen, x ∈ found
  starts : ∀ v ∈ vs, s.root v ∈ found
  sound : ∀ x ∈ found, x ∈ seen ∨ ∃ v ∈ vs, s.Reaches v x
  closed : ∀ x ∈ found, x ∈ seen ∨ ∀ y, s.Edge x y → y ∈ found

theorem foldl_visited {fuel : Nat}
    (hvisit : ∀ seen v, I v → s.unseen seen ≤ fuel → Visited s seen [v] (visit s fuel seen v)) :
    ∀ (vs seen : List Var), (∀ v ∈ vs, I v) → s.unseen seen ≤ fuel →
      Visited s seen vs (vs.foldl (visit s fuel) seen) := by
  intro vs
  induction vs with
  | nil =>
    intro seen _ _
    exact ⟨fun _ h => h, by simp, fun _ h => .inl h, fun _ h => .inl h⟩
  | cons v vs ih =>
    intro seen hvs hfuel
    have h1 := hvisit seen v (hvs v (by simp)) hfuel
    have h2 := ih (visit s fuel seen v) (fun w hw => hvs w (by simp [hw]))
      ((unseen_le h1.keeps).trans hfuel)
    refine ⟨fun x hx => h2.keeps x (h1.keeps x hx), fun w hw => ?_, fun x hx => ?_, fun x hx => ?_⟩
    · rcases List.mem_cons.mp hw with rfl | hw
      · exact h2.keeps _ (h1.starts w (by simp))
      · exact h2.starts w hw
    · rcases h2.sound x hx with hx | ⟨w, hw, hr⟩
      · rcases h1.sound x hx with hx | ⟨w, hw, hr⟩
        · exact .inl hx
        · rw [List.mem_singleton] at hw
          exact .inr ⟨v, by simp, hw ▸ hr⟩
      · exact .inr ⟨w, by simp [hw], hr⟩
    · rcases h2.closed x hx with hx | hx
      · rcases h1.closed x hx with hx | hx
        · exact .inl hx
        · exact .inr fun y hy => h2.keeps y (hx y hy)
      · exact .inr hx

theorem visited_leaf (h : s.Forest) (hb : ∀ t, s.kind v ≠ .bound t) :
    Visited s seen [v] (s.root v :: seen) := by
  refine ⟨fun x hx => by simp [hx], by simp, fun x hx => ?_, fun x hx => ?_⟩
  · rcases List.mem_cons.mp hx with rfl | hx
    · exact .inr ⟨v, by simp, ReflTransGen.refl⟩
    · exact .inl hx
  · rcases List.mem_cons.mp hx with rfl | hx
    · refine .inr fun y hy => ?_
      obtain ⟨t, ht, _⟩ := (edge_root h).mp hy
      exact absurd ht (hb t)
    · exact .inl hx

theorem visit_visited (h : s.Forest) (hI : s.Closed I) : ∀ (fuel : Nat) (seen : List Var) (v : Var),
    I v → s.unseen seen ≤ fuel → Visited s seen [v] (visit s fuel seen v) := by
  intro fuel
  induction fuel with
  | zero =>
    intro seen v hv hfuel
    have hmem : s.root v ∈ seen := by
      by_contra hn
      have := unseen_cons_lt (h.root_lt (hI.lt v hv)) hn
      omega
    exact ⟨fun _ h => h, by simpa [visit] using hmem, fun _ h => .inl h, fun _ h => .inl h⟩
  | succ fuel ih =>
    intro seen v hv hfuel
    rw [visit]
    by_cases hmem : s.root v ∈ seen
    · rw [if_pos hmem]
      exact ⟨fun _ h => h, by simpa using hmem, fun _ h => .inl h, fun _ h => .inl h⟩
    rw [if_neg hmem]
    rw [h.content_root]
    cases hc : s.content v with
    | unbound rank hint => exact visited_leaf h fun t ht => by rw [kind_eq_bound, hc] at ht; cases ht
    | poisoned => exact visited_leaf h fun t ht => by rw [kind_eq_bound, hc] at ht; cases ht
    | bound t =>
      have ht : s.kind v = .bound t := kind_eq_bound.mpr hc
      have hlt := unseen_cons_lt (h.root_lt (hI.lt v hv)) hmem
      have hf := foldl_visited ih t.vars (s.root v :: seen) (hI.vars v t hv ht) (by omega)
      -- what the search from `v` added beside its root is what it added behind the binding
      refine ⟨fun x hx => hf.keeps x (by simp [hx]), fun w hw => ?_, fun x hx => ?_, fun x hx => ?_⟩
      · rw [List.mem_singleton] at hw
        exact hf.keeps _ (by simp [hw])
      · rcases hf.sound x hx with hx | ⟨w, hw, hr⟩
        · rcases List.mem_cons.mp hx with rfl | hx
          · exact .inr ⟨v, by simp, ReflTransGen.refl⟩
          · exact .inl hx
        · have he : s.Edge (s.root v) (s.root w) := (edge_root h).mpr ⟨t, ht, w, hw, rfl⟩
          exact .inr ⟨v, by simp, ReflTransGen.head he hr⟩
      · rcases hf.closed x hx with hx | hx
        · rcases List.mem_cons.mp hx with rfl | hx
          · refine .inr fun y hy => ?_
            obtain ⟨t', ht', w, hw, rfl⟩ := (edge_root h).mp hy
            rw [ht] at ht'
            cases ht'
            exact hf.starts w hw
          · exact .inl hx
        · exact .inr hx

theorem mem_of_reaches_of_closed {found : List Var} (hc : ∀ x ∈ found, ∀ y, s.Edge x y → y ∈ found)
    (hv : s.root v ∈ found) (hr : s.Reaches v r) : r ∈ found := by
  induction hr with
  | refl => exact hv
  | tail _ he ih => exact hc _ ih _ he

theorem Closed.mem_foldl_visit (hI : s.Closed I) (h : s.Forest) (hvs : ∀ v ∈ vs, I v) :
    r ∈ vs.foldl (s.visit s.size) [] ↔ ∃ v ∈ vs, s.Reaches v r := by
  have hle : s.unseen [] ≤ s.size := by
    refine (Finset.card_le_card (Finset.filter_subset _ _)).trans ?_
    rw [Finset.card_range]
  have hv := foldl_visited (visit_visited h hI s.size) vs [] hvs hle
  constructor
  · intro hr
    rcases hv.sound r hr with hr | hr
    · cases hr
    · exact hr
  · rintro ⟨v, hvm, hr⟩
    refine mem_of_reaches_of_closed (fun x hx => ?_) (hv.starts v hvm) hr
    exact (hv.closed x hx).resolve_left List.not_mem_nil

theorem mem_foldl_visit (h : s.Formed) (hvs : ∀ v ∈ vs, v < s.size) :
    r ∈ vs.foldl (s.visit s.size) [] ↔ ∃ v ∈ vs, s.Reaches v r :=
  h.contained.closed.mem_foldl_visit h.forest hvs

theorem mem_reach (h : s.Formed) (ht : t.Fits s.size) :
    r ∈ s.reach t ↔ ∃ v ∈ t.vars, s.Reaches v r :=
  mem_foldl_visit h fun _ hv => ht.lt hv

theorem Reaches.eq_root (hr : s.Reaches v r) (hk : ∀ t, s.kind (s.root v) ≠ .bound t) :
    r = s.root v := by
  rcases ReflTransGen.cases_head hr with heq | ⟨x, ⟨t, ht, _⟩, _⟩
  · exact heq.symm
  · exact absurd ht (hk t)

theorem Reaches.of_bound (hr : s.Reaches v r) (hk : s.kind (s.root v) = .bound t) :
    r = s.root v ∨ ∃ w ∈ t.vars, s.Reaches w r := by
  rcases ReflTransGen.cases_head hr with heq | ⟨x, ⟨t', ht', w, hw, rfl⟩, hr⟩
  · exact .inl heq.symm
  · rw [hk] at ht'
    cases ht'
    exact .inr ⟨w, hw, hr⟩

theorem not_reaches_of_kind (hb : s.root b = b) (hab : a ≠ b) (hk : ∀ t, s.kind b ≠ .bound t) :
    ¬ s.Reaches b a := fun hr =>
  hab ((hr.eq_root (by rwa [hb])).trans hb)

theorem not_reaches_of_not_mem (h : s.Formed) (hb : s.root b = b) (hab : a ≠ b)
    (hk : s.kind b = .bound t) (hn : a ∉ s.reach t) : ¬ s.Reaches b a := by
  intro hr
  rcases hr.of_bound (by rwa [hb]) with heq | hr
  · exact hab (heq.trans hb)
  · exact hn ((mem_reach h (h.fits b t hk)).mpr hr)

def Grounded (s : Store) : Prop := WellFounded fun r v => s.Edge v r

theorem acyclic_iff : s.Acyclic ↔ s.Grounded := by
  constructor
  · intro ha
    refine wellFounded_of_acyclic (Set.finite_lt_nat s.size) (fun v r he => ?_) ha
    obtain ⟨t, ht, _⟩ := he
    exact lt_of_kind (by rw [ht]; simp)
  · intro hg r hr
    have hwf : WellFounded (TransGen fun r v => s.Edge v r) := hg.transGen
    exact hwf.irrefl.irrefl r (transGen_swap.mp hr)

theorem Alike.edge (h : Alike s s') : s'.Edge v r ↔ s.Edge v r := by
  simp only [Edge, h.kind, h.root]

theorem Alike.reaches (h : Alike s s') : s'.Reaches v r ↔ s.Reaches v r := by
  have he : s'.Edge = s.Edge := by funext a b; exact propext h.edge
  rw [Reaches, Reaches, h.root, he]

theorem Alike.formed (h : Alike s s') (hf : s'.Forest) (hs : s.Formed) : s'.Formed :=
  ⟨hf, fun v t ht => by rw [h.size]; exact hs.fits v t (by rw [← h.kind]; exact ht)⟩

theorem Grounded.mono (hg : s.Grounded) (he : ∀ v r, s'.Edge v r → s.Edge v r) : s'.Grounded :=
  Subrelation.wf (fun {r v} h => he v r h) hg

theorem acc_of_not_reaches (hg : s.Grounded) (h : s.Forest)
    (hsame : ∀ v x, ¬ s.Reaches v r → s'.Edge v x → s.Edge v x) :
    ∀ v, ¬ s.Reaches v r → Acc (fun x v => s'.Edge v x) v := by
  intro v
  induction v using hg.induction with
  | _ v ih =>
    intro hv
    refine ⟨_, fun x hx => ?_⟩
    have he := hsame v x hv hx
    refine ih x he fun hr => hv ?_
    have hr' : ReflTransGen s.Edge x r := by rwa [Reaches, he.root_eq h] at hr
    exact ReflTransGen.head ((edge_root h).mpr he) hr'

section Put

variable {r : Var} {t : Ty}

theorem put_formed (h : s.Formed) (hr : r < s.size) (hroot : s.root r = r) {c : Content}
    (hc : ∀ t, c = .bound t → t.Fits s.size) : (s.put r c).Formed := by
  obtain ⟨hf, _, hcon⟩ := put_view h.forest hr hroot c
  refine ⟨hf, fun v t ht => ?_⟩
  rw [put_size]
  rw [kind_eq_bound, hcon] at ht
  split at ht
  · exact hc t ht
  · exact h.fits v t (kind_eq_bound.mpr ht)

theorem put_edge (h : s.Forest) (hr : r < s.size) (hroot : s.root r = r) {c : Content} {x : Var} :
    (s.put r c).Edge v x ↔
      if s.root v = r then ∃ t, c = .bound t ∧ ∃ w ∈ t.vars, s.root w = x else s.Edge v x := by
  obtain ⟨_, hro, hcon⟩ := put_view h hr hroot c
  simp only [Edge, kind_eq_bound, hcon, hro]
  split <;> rfl

theorem grounded_put_bound (hg : s.Grounded) (h : s.Formed) (hr : r < s.size)
    (hroot : s.root r = r) (ht : t.Fits s.size) (hn : r ∉ s.reach t) :
    (s.put r (.bound t)).Grounded := by
  have hstart : ∀ w ∈ t.vars, ¬ s.Reaches w r := fun w hw hreach =>
    hn ((mem_reach h ht).mpr ⟨w, hw, hreach⟩)
  have hself : ∀ v, s.root v = r → s.Reaches v r := by
    rintro v rfl
    exact ReflTransGen.refl
  have hout : ∀ v, ¬ s.Reaches v r → Acc (fun x v => (s.put r (.bound t)).Edge v x) v :=
    acc_of_not_reaches hg h.forest fun v x hv hx => by
      rw [put_edge h.forest hr hroot] at hx
      rwa [if_neg fun he => hv (hself v he)] at hx
  refine ⟨fun v => ?_⟩
  induction v using hg.induction with
  | _ v ih =>
    refine ⟨_, fun x hx => ?_⟩
    rw [put_edge h.forest hr hroot] at hx
    split at hx
    · obtain ⟨t', ht', w, hw, rfl⟩ := hx
      cases ht'
      refine hout _ fun hreach => hstart w hw ?_
      rwa [Reaches, h.forest.root_root] at hreach
    · exact ih x hx

end Put

section Link

variable {a b : Var}

theorem link_formed (h : s.Formed) (ha : a < s.size) (hb : b < s.size) (hra : s.root a = a)
    (hrb : s.root b = b) (hab : a ≠ b) : (s.link a b).Formed := by
  obtain ⟨hf, _, hcon⟩ := link_view h.forest ha hb hra hrb hab
  refine ⟨hf, fun v t ht => ?_⟩
  rw [link_size]
  rw [kind_eq_bound, hcon] at ht
  split at ht
  · exact h.fits b t (kind_eq_bound.mpr ht)
  · exact h.fits v t (kind_eq_bound.mpr ht)

theorem link_edge (h : s.Forest) (ha : a < s.size) (hb : b < s.size) (hra : s.root a = a)
    (hrb : s.root b = b) (hab : a ≠ b) {x : Var} : (s.link a b).Edge v x ↔
      ∃ y, s.Edge (if s.root v = a then b else v) y ∧ x = if y = a then b else y := by
  obtain ⟨_, hro, hcon⟩ := link_view h ha hb hra hrb hab
  simp only [Edge, kind_eq_bound, hcon, hro]
  constructor
  · rintro ⟨t, ht, w, hw, rfl⟩
    refine ⟨s.root w, ⟨t, ?_, w, hw, rfl⟩, rfl⟩
    split at ht <;> simp_all
  · rintro ⟨y, ⟨t, ht, w, hw, rfl⟩, rfl⟩
    refine ⟨t, ?_, w, hw, rfl⟩
    split at ht <;> simp_all

theorem grounded_link (hg : s.Grounded) (h : s.Formed) (ha : a < s.size) (hb : b < s.size)
    (hra : s.root a = a) (hrb : s.root b = b) (hab : a ≠ b) (hn : ¬ s.Reaches b a) :
    (s.link a b).Grounded := by
  have hself : ∀ v, s.root v = a → s.Reaches v a := by
    rintro v rfl
    exact ReflTransGen.refl
  have hout : ∀ v, ¬ s.Reaches v a → Acc (fun x v => (s.link a b).Edge v x) v :=
    acc_of_not_reaches hg h.forest fun v x hv hx => by
      obtain ⟨y, hy, rfl⟩ := (link_edge h.forest ha hb hra hrb hab).mp hx
      rw [if_neg fun he => hv (hself v he)] at hy
      have hya : y ≠ a := by
        rintro rfl
        exact hv (ReflTransGen.single ((edge_root h.forest).mpr hy))
      rwa [if_neg hya]
  have haccb := hout b hn
  refine ⟨fun v => ?_⟩
  induction v using hg.induction with
  | _ v ih =>
    refine ⟨_, fun x hx => ?_⟩
    by_cases hv : s.root v = a
    · -- `v` is in the class that went under `b`, so it has the edges of `b`
      refine haccb.inv ?_
      obtain ⟨y, hy, rfl⟩ := (link_edge h.forest ha hb hra hrb hab).mp hx
      rw [if_pos hv] at hy
      refine (link_edge h.forest ha hb hra hrb hab).mpr ⟨y, ?_, rfl⟩
      rwa [hrb, if_neg hab.symm]
    · obtain ⟨y, hy, rfl⟩ := (link_edge h.forest ha hb hra hrb hab).mp hx
      rw [if_neg hv] at hy
      split
      · exact haccb
      · exact ih y hy

theorem link_circle (hs : s.Acyclic) (h : s.Forest) (ha : a < s.size) (hb : b < s.size)
    (hra : s.root a = a) (hrb : s.root b = b) (hab : a ≠ b) (hr : s.Reaches b a) :
    TransGen (s.link a b).Edge b b := by
  have hpath : ∀ {x}, TransGen s.Edge x a → s.root x = x → TransGen (s.link a b).Edge x b := by
    intro x hx
    induction hx using TransGen.head_induction_on with
    | @single x he =>
      intro hrx
      have hxa : x ≠ a := by rintro rfl; exact hs _ (.single he)
      refine .single ((link_edge h ha hb hra hrb hab).mpr ⟨a, ?_, by rw [if_pos rfl]⟩)
      rwa [hrx, if_neg hxa]
    | @head x y he hy ih =>
      intro hrx
      have hxa : x ≠ a := by rintro rfl; exact hs _ (.head he hy)
      have hya : y ≠ a := by rintro rfl; exact hs _ hy
      refine .head ((link_edge h ha hb hra hrb hab).mpr ⟨y, ?_, by rw [if_neg hya]⟩)
        (ih (he.root_eq h))
      rwa [hrx, if_neg hxa]
  refine hpath ?_ hrb
  rw [Reaches, hrb] at hr
  rcases reflTransGen_iff_eq_or_transGen.mp hr with rfl | hr
  · exact absurd rfl hab
  · exact hr

theorem acyclic_link_iff (hs : s.Acyclic) (h : s.Formed) (ha : a < s.size) (hb : b < s.size)
    (hra : s.root a = a) (hrb : s.root b = b) (hab : a ≠ b) :
    (s.link a b).Acyclic ↔ ¬ s.Reaches b a := by
  constructor
  · intro hl hr
    exact hl b (link_circle hs h.forest ha hb hra hrb hab hr)
  · intro hn
    rw [acyclic_iff]
    exact grounded_link (acyclic_iff.mp hs) h ha hb hra hrb hab hn

end Link

end Store
end TypeSolver
