import TypeSolver.Proofs.Mirrors

/-!
# TypeSolver.Proofs.Frames

What a unification leaves alone. A call can only write to classes that its types lead to: a class
which no variable of the call leads to keeps its representative, what it stands for and its rank,
and no class comes to lead to it that did not before (`Runs.spares`). This holds for every call,
also one that fails: a run is mirrored by itself, and owns what does not lead to the class.
-/

namespace TypeSolver
namespace Store

open Relation

variable {s s' s'' : Store} {q : Var} {g : Guard}

/-- From `s` to `s'` the root `q` stays a root with the same content, and no class comes to lead to
it. -/
structure Spares (q : Var) (s s' : Store) : Prop where
  root : s'.root q = q
  content : s'.content q = s.content q
  apart : ∀ v, ¬ s.Reaches v q → ¬ s'.Reaches v q

variable {r v : Var} {c : Call}

theorem reaches_root (h : s.Forest) : s.Reaches (s.root v) r ↔ s.Reaches v r := by
  rw [Reaches, Reaches, h.root_root]

theorem Reaches.of_edge (h : s.Forest) {x : Var} (he : s.Edge v x) (hr : s.Reaches x r) :
    s.Reaches v r := by
  rw [Reaches, he.root_eq h] at hr
  exact .head ((edge_root h).mpr he) hr

theorem not_reaches_of_bound (h : s.Forest) {w : Var} {t : Ty} (hk : s.kind v = .bound t)
    (hv : ¬ s.Reaches v q) (hw : w ∈ t.vars) : ¬ s.Reaches w q := fun hr =>
  hv (.of_edge h ⟨t, hk, w, hw, rfl⟩ ((reaches_root h).mpr hr))

namespace Spares

theorem refl (hq : s.root q = q) : Spares q s s := ⟨hq, rfl, fun _ h => h⟩

theorem trans (h : Spares q s s') (h' : Spares q s' s'') : Spares q s s'' :=
  ⟨h'.root, h'.content.trans h.content, fun v hv => h'.apart v (h.apart v hv)⟩

theorem not_reaches_fresh (h : s.Forest) (hlt : q < s.size) (rank : Rank) (hint : Option String) :
    ¬ (s.fresh rank hint).2.Reaches s.size q := by
  obtain ⟨_, hro, hcon⟩ := fresh_view h rank hint
  have hroot : (s.fresh rank hint).2.root s.size = s.size :=
    (hro _).trans (Forest.root_of_size_le le_rfl).1
  refine not_reaches_of_kind hroot (Nat.ne_of_lt hlt) fun t ht => ?_
  rw [kind_eq_bound, hcon, if_pos rfl] at ht
  cases ht

end Spares

theorem mirrors_self (hf : s.Forest) (hs : s.Contained) (hlt : q < s.size) :
    Mirrors (fun v => ¬ s.Reaches v q) id s s s where
  forest := hf
  forest' := hf
  aliases := rfl
  next _ := rfl
  later v hv := by
    obtain ⟨hroot, hc⟩ := Forest.root_of_size_le hv
    refine not_reaches_of_kind hroot (Nat.ne_of_lt (hlt.trans_le hv)) fun t ht => ?_
    rw [kind_eq_bound, hc] at ht
    cases ht
  injective _ _ _ _ h := h
  lt _ hv := hv.2
  ownRoot v hv := by rwa [reaches_root hf]
  root _ _ := rfl
  content v _ := (Content.renamed_id _).symm
  within v u hv hu w hw := by
    have hk := kind_eq_bound.mpr hu
    exact ⟨not_reaches_of_bound hf hk hv hw, hs v u hk w hw⟩
  apart w hw v hv := by
    rintro rfl
    exact hw w (by rwa [reaches_root hf] at hv) rfl
  kept _ _ := ⟨rfl, rfl⟩
  keptAliases := rfl
  grown := le_rfl

/-- What leads to `q` stands after a run as before it. -/
theorem Mirrors.frame (h : Mirrors (fun v => ¬ s.Reaches v q) id s s' s')
    (hv : s.Reaches v q) : s'.root v = s.root v ∧ s'.content v = s.content v :=
  h.kept v fun w hw (heq : w = v) => hw (show s.Reaches w q from heq ▸ hv)

theorem Mirrors.spares (h : Mirrors (fun v => ¬ s.Reaches v q) id s s' s')
    (hq : s.root q = q) : Spares q s s' := by
  have hself : s.Reaches q q := by rw [Reaches, hq]
  exact ⟨(h.frame hself).1.trans hq, (h.frame hself).2,
    fun v hv hr => h.own_of_reaches hv hr hself⟩

theorem Spares.fresh (hs : s.Formed) (hq : s.root q = q) (hlt : q < s.size) (rank : Rank)
    (hint : Option String) : Spares q s (s.fresh rank hint).2 :=
  ((mirrors_self hs.forest hs.contained hlt).fresh rank hint).spares hq

theorem Spares.kind_eq (hs : Spares q s s') (hk : s.kind q = .free) : s'.kind q = .free := by
  rw [kind_eq_free] at hk ⊢
  rwa [hs.content]

/-- An unbound class of one variable that no binding mentions. -/
structure Isolated (s : Store) (v : Var) : Prop where
  root : s.root v = v
  free : s.kind v = .free
  only : ∀ w, s.Reaches w v → w = v

theorem Isolated.lt (h : s.Isolated v) : v < s.size := lt_of_kind (by rw [h.free]; simp)

theorem Isolated.eq_of_reaches (h : s.Isolated v) (hr : s.Reaches v r) : r = v := by
  rw [← h.root]
  exact hr.eq_root (by rw [h.root, h.free]; simp)

theorem Isolated.spares (h : s.Isolated v) (hs : Spares v s s') : s'.Isolated v := by
  refine ⟨hs.root, hs.kind_eq h.free, fun w hw => Classical.byContradiction fun hne => ?_⟩
  exact hs.apart w (fun hr => hne (h.only w hr)) hw

theorem Call.Over.owns {V : Var → Prop} (h : c.Over V) (hfit : c.Fits s.size) :
    c.All fun u => Owns V s u.vars := by
  have hboth : ∀ {u : Ty}, u.Over V → u.Fits s.size → Owns V s u.vars := fun hu hfit v hv =>
    ⟨hu.mem hv, hfit.mem hv⟩
  cases c with
  | types | terms => exact ⟨hboth h.1 hfit.1, hboth h.2 hfit.2⟩
  | vars => exact ⟨owns_var.mpr ⟨h.1, hfit.1⟩, owns_var.mpr ⟨h.2, hfit.2⟩⟩
  | var => exact ⟨owns_var.mpr ⟨h.1, hfit.1⟩, hboth h.2 hfit.2⟩
  | rows =>
    exact ⟨hboth h.1 hfit.1, hboth h.2.1 hfit.2.1, hboth h.2.2.1 hfit.2.2.1,
      hboth h.2.2.2 hfit.2.2.2⟩
  | tails =>
    exact ⟨owns_var.mpr ⟨h.1, hfit.1⟩, owns_var.mpr ⟨h.2.1, hfit.2.1⟩, hboth h.2.2.1 hfit.2.2.1,
      hboth h.2.2.2 hfit.2.2.2⟩

def Outcome.Spares (q : Var) (s : Store) : Outcome → Prop
  | .unified s' => Store.Spares q s s'
  | .failed _ s' => Store.Spares q s s'
  | .outOfFuel => True

def Framed (c : Call) (s : Store) (o : Outcome) : Prop :=
  ∀ q, q < s.size → s.root q = q → c.Over (fun v => ¬ s.Reaches v q) → Outcome.Spares q s o

theorem Call.mirrors_run (hf : s.Forest) (hs : s.Contained) (hlt : q < s.size) {k : Nat}
    (hc : c.All fun u => Owns (fun v => ¬ s.Reaches v q) s u.vars) :
    Outcome.Mirrors (fun v => ¬ s.Reaches v q) id s s.size (c.run k s) (c.run k s) := by
  have hrun := (Mirrors.lockstep _ _ _).run (mirrors_self hf hs hlt) k c hc
  rwa [renamed_id] at hrun

theorem Runs.spares {n : Nat} {o : Outcome} (h : Runs g n c s o) (hs : s.WellFormed)
    (hfit : c.Fits s.size) : Framed c s o := by
  intro q hlt hq hc
  obtain ⟨k, hk⟩ := h.completes.exists_fuel
  have hrun := Call.mirrors_run (k := k) hs.forest hs.contained hlt (hc.owns hfit)
  rw [hk] at hrun
  cases hrun with
  | unified _ h => exact h.spares hq
  | failed _ _ h => exact h.spares hq
  | outOfFuel => trivial

end Store
end TypeSolver
