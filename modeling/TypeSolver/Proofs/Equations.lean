import TypeSolver.Proofs.Runs

/-!
# TypeSolver.Proofs.Equations

How steps change what solves a store. Making a variable asks nothing of a solution, binding a class
and putting it under another ask for one equation each. A class that is bound loses its type when
it goes under another; no solution is gained by that if the two classes had one meaning in all
solutions, and bindings still come to an end (`solvedBy_of_join`).
-/

namespace TypeSolver
namespace Store

open Relation

section Grounded

variable {g : Guard} {p : Bool} {s s' : Store}

def Guard.Untied (g : Guard) : Prop := ∀ s a b, g.join s a b → ¬ s.Reaches b a

theorem Alike.grounded (h : Alike s s') (hg : s.Grounded) : s'.Grounded :=
  hg.mono fun _ _ => h.edge.mp

theorem fresh_grounded (h : s.Formed) (hg : s.Grounded) (rank : Rank) (hint : Option String) :
    (s.fresh rank hint).2.Grounded := by
  obtain ⟨_, hr, hc⟩ := fresh_view h.forest rank hint
  refine hg.mono fun v r ⟨t, ht, w, hw, hwr⟩ => ?_
  rw [kind_eq_bound, hc] at ht
  rw [hr] at hwr
  split at ht
  · cases ht
  · exact ⟨t, kind_eq_bound.mpr ht, w, hw, hwr⟩

theorem poison_grounded (h : s.Formed) (hg : s.Grounded) {v : Var} (hv : v < s.size) :
    (s.poison v).Grounded := by
  obtain ⟨_, hr, hc⟩ := poison_view h.forest hv
  refine hg.mono fun x r ⟨t, ht, w, hw, hwr⟩ => ?_
  rw [kind_eq_bound, hc] at ht
  rw [hr] at hwr
  split at ht
  · cases ht
  · exact ⟨t, kind_eq_bound.mpr ht, w, hw, hwr⟩

theorem Step.grounded (hun : g.Untied) (h : Step g p s s') (hs : s.Formed) (hg : s.Grounded) :
    s'.Grounded := by
  cases h with
  | alike _ ha => exact ha.grounded hg
  | fresh rank hint => exact fresh_grounded hs hg rank hint
  | bind hr hroot _ ht hn => exact grounded_put_bound hg hs hr hroot ht hn
  | link ha hb hra hrb hab hj => exact grounded_link hg hs ha hb hra hrb hab (hj.elim id (hun _ _ _))
  | poison _ hv => exact poison_grounded hs hg hv

theorem Steps.grounded (hun : g.Untied) (h : Steps g p s s') (hs : s.WellFormed)
    (hg : s.Grounded) : s'.Grounded := by
  induction h with
  | refl => exact hg
  | tail hsteps hstep ih => exact hstep.grounded hun (Steps.wellFormed hsteps hs).toFormed ih

end Grounded

section Healthy

variable {g : Guard} {s s' : Store}

def Healthy (s : Store) : Prop := ∀ v, v < s.size → s.kind v ≠ .poisoned

theorem Healthy.forest (h : s.Healthy) : s.Forest := by
  refine ⟨fun v => ?_, fun v w hl => ?_⟩
  · rcases Nat.lt_or_ge v s.size with hv | hv
    · have hc : s.content v ≠ .poisoned := fun hc => h v hv (kind_eq_poisoned.mpr hc)
      rw [content] at hc
      split at hc
      · rename_i c hslot
        obtain ⟨n, hn⟩ := Path.of_follow hslot
        exact ⟨n, _, hn⟩
      · exact absurd rfl hc
    · exact ⟨0, v, .here fun w hw => by rw [Array.getElem?_eq_none hv] at hw; cases hw⟩
  · by_contra hw
    have hnone : s.slots[w]? = none := Array.getElem?_eq_none (Nat.le_of_not_lt hw)
    have hpath : Path s.slots 1 v w :=
      .next hl (.here fun x hx => by rw [hnone] at hx; cases hx)
    refine h v (Array.getElem?_eq_some_iff.mp hl).1 (kind_eq_poisoned.mpr ?_)
    rw [content, hpath.root_eq, hnone]

theorem Alike.healthy (h : Alike s s') (hh : s.Healthy) : s'.Healthy := fun v hv => by
  rw [h.kind]; exact hh v (by rwa [h.size] at hv)

namespace Healthy

variable (hh : s.Healthy) (hf : s.Forest)

include hh hf

theorem fresh (rank : Rank) (hint : Option String) : (s.fresh rank hint).2.Healthy := by
  intro v hv
  obtain ⟨_, _, hc⟩ := fresh_view hf rank hint
  rw [ne_eq, kind_eq_poisoned, hc]
  split
  · simp
  · rename_i hne
    rw [fresh_size] at hv
    rw [← kind_eq_poisoned]
    exact hh v (Nat.lt_of_le_of_ne (Nat.le_of_lt_succ hv) hne)

theorem put_bound {r : Var} (hr : r < s.size) (hroot : s.root r = r) (t : Ty) :
    (s.put r (.bound t)).Healthy := by
  intro v hv
  obtain ⟨_, _, hc⟩ := put_view hf hr hroot (.bound t)
  rw [ne_eq, kind_eq_poisoned, hc]
  split
  · simp
  · rw [← kind_eq_poisoned]; exact hh v (by rwa [put_size] at hv)

theorem link {a b : Var} (ha : a < s.size) (hb : b < s.size) (hra : s.root a = a)
    (hrb : s.root b = b) (hab : a ≠ b) : (s.link a b).Healthy := by
  intro v hv
  obtain ⟨_, _, hc⟩ := link_view hf ha hb hra hrb hab
  rw [ne_eq, kind_eq_poisoned, hc]
  split
  · rw [← kind_eq_poisoned]; exact hh _ hb
  · rw [← kind_eq_poisoned]; exact hh v (by rwa [link_size] at hv)

end Healthy

theorem Step.healthy (h : Step g false s s') (hs : s.Formed) (hh : s.Healthy) : s'.Healthy := by
  cases h with
  | alike _ ha => exact ha.healthy hh
  | fresh rank hint => exact hh.fresh hs.forest rank hint
  | bind hr hroot _ _ _ => exact hh.put_bound hs.forest hr hroot _
  | link ha hb hra hrb hab _ => exact hh.link hs.forest ha hb hra hrb hab
  | poison hp _ => cases hp

theorem Steps.healthy (h : Steps g false s s') (hs : s.WellFormed) (hh : s.Healthy) :
    s'.Healthy := by
  induction h with
  | refl => exact hh
  | tail hsteps hstep ih => exact hstep.healthy (Steps.wellFormed hsteps hs).toFormed ih

end Healthy

section Equations

variable {s s' : Store} {θ : Valuation}

theorem Alike.solvedBy (h : Alike s s') : s'.SolvedBy θ ↔ s.SolvedBy θ := by
  constructor <;> intro hθ
  · refine ⟨fun v => ?_, fun v t ht => ?_, fun v hv hk => ?_, hθ.tidy⟩
    · rw [← h.root]; exact hθ.root v
    · rw [← h.aliases]; exact hθ.bound v t (by rw [h.kind]; exact ht)
    · exact hθ.poisoned v (by rw [h.size]; exact hv) (by rw [h.kind]; exact hk)
  · refine ⟨fun v => ?_, fun v t ht => ?_, fun v hv hk => ?_, hθ.tidy⟩
    · rw [h.root]; exact hθ.root v
    · rw [h.aliases]; exact hθ.bound v t (by rw [← h.kind]; exact ht)
    · exact hθ.poisoned v (by rw [← h.size]; exact hv) (by rw [← h.kind]; exact hk)

theorem solvedBy_of_fresh (h : s.Formed) {rank : Rank} {hint : Option String}
    (hθ : (s.fresh rank hint).2.SolvedBy θ) : s.SolvedBy θ := by
  obtain ⟨_, hr, hc⟩ := fresh_view h.forest rank hint
  have hold : ∀ v, v < s.size → (s.fresh rank hint).2.kind v = s.kind v := by
    intro v hv
    rw [kind, hc, if_neg (Nat.ne_of_lt hv), kind]
  refine ⟨fun v => ?_, fun v t ht => ?_, fun v hv hk => ?_, hθ.tidy⟩
  · rw [← hr]; exact hθ.root v
  · exact hθ.bound v t (by rw [hold v (lt_of_kind (by rw [ht]; simp))]; exact ht)
  · exact hθ.poisoned v (by rw [fresh_size]; exact Nat.lt_succ_of_lt hv) (by rw [hold v hv]; exact hk)

theorem put_solvedBy (h : s.Forest) {r : Var} (hr : r < s.size) (hroot : s.root r = r)
    (hk : s.kind r = .free) {t : Ty} :
    (s.put r (.bound t)).SolvedBy θ ↔ s.SolvedBy θ ∧ Denotes s.aliases θ t (θ r) := by
  obtain ⟨_, hro, hc⟩ := put_view h hr hroot (.bound t)
  have hkind : ∀ v, (s.put r (.bound t)).kind v = if s.root v = r then .bound t else s.kind v := by
    intro v
    rw [kind, hc]
    split <;> rfl
  have hfree : ∀ v, s.root v = r → s.kind v = .free := by
    intro v hv
    rw [← kind_root h, hv, hk]
  constructor
  · intro hθ
    refine ⟨⟨fun v => ?_, fun v u hu => ?_, fun v hv hp => ?_, hθ.tidy⟩, ?_⟩
    · rw [← hro]; exact hθ.root v
    · have hne : s.root v ≠ r := fun hv => by rw [hfree v hv] at hu; cases hu
      exact hθ.bound v u (by rw [hkind, if_neg hne]; exact hu)
    · have hne : s.root v ≠ r := fun hv => by rw [hfree v hv] at hp; cases hp
      exact hθ.poisoned v (by rw [put_size]; exact hv) (by rw [hkind, if_neg hne]; exact hp)
    · exact hθ.bound r t (by rw [hkind, if_pos hroot])
  · rintro ⟨hθ, ht⟩
    refine ⟨fun v => ?_, fun v u hu => ?_, fun v hv hp => ?_, hθ.tidy⟩
    · rw [hro]; exact hθ.root v
    · rw [hkind] at hu
      split at hu
      · rename_i hv
        cases hu
        rw [← hθ.root v, hv]
        exact ht
      · exact hθ.bound v u hu
    · rw [hkind] at hp
      split at hp
      · cases hp
      · exact hθ.poisoned v (by rw [← put_size]; exact hv) hp

section Link

variable {a b : Var} (h : s.Forest) (ha : a < s.size) (hb : b < s.size) (hra : s.root a = a)
  (hrb : s.root b = b) (hab : a ≠ b)

include h ha hb hra hrb hab

theorem link_kind (v : Var) :
    (s.link a b).kind v = if s.root v = a then s.kind b else s.kind v := by
  obtain ⟨_, _, hc⟩ := link_view h ha hb hra hrb hab
  rw [kind, hc]
  split <;> rfl

theorem link_solvedBy (hθ : s.SolvedBy θ) (heq : θ a = θ b) : (s.link a b).SolvedBy θ := by
  obtain ⟨_, hro, _⟩ := link_view h ha hb hra hrb hab
  have hkind := link_kind h ha hb hra hrb hab
  have hclass : ∀ v, s.root v = a → θ v = θ b := by
    intro v hv
    rw [← hθ.root v, hv, heq]
  refine ⟨fun v => ?_, fun v t ht => ?_, fun v hv hp => ?_, hθ.tidy⟩
  · rw [hro]
    split
    · rename_i hv; exact (hclass v hv).symm
    · exact hθ.root v
  · rw [hkind] at ht
    split at ht
    · rename_i hv; rw [hclass v hv]; exact hθ.bound b t ht
    · exact hθ.bound v t ht
  · rw [hkind] at hp
    split at hp
    · rename_i hv'; rw [hclass v hv']; exact hθ.poisoned b hb hp
    · exact hθ.poisoned v (by rw [← link_size]; exact hv) hp

theorem eq_of_link (hθ : (s.link a b).SolvedBy θ) : θ a = θ b := by
  obtain ⟨_, hro, _⟩ := link_view h ha hb hra hrb hab
  rw [← hθ.root a, hro, if_pos hra]

theorem solvedBy_of_link (hk : s.kind a = .free) (hθ : (s.link a b).SolvedBy θ) :
    s.SolvedBy θ := by
  obtain ⟨_, hro, _⟩ := link_view h ha hb hra hrb hab
  have hkind := link_kind h ha hb hra hrb hab
  have heq := eq_of_link h ha hb hra hrb hab hθ
  have hfree : ∀ v, s.root v = a → s.kind v = .free := by
    intro v hv
    rw [← kind_root h, hv, hk]
  refine ⟨fun v => ?_, fun v t ht => ?_, fun v hv hp => ?_, hθ.tidy⟩
  · have hroot := hθ.root v
    rw [hro] at hroot
    split at hroot
    · rename_i hv; rw [hv, heq, hroot]
    · exact hroot
  · have hne : s.root v ≠ a := fun hv => by rw [hfree v hv] at ht; cases ht
    exact hθ.bound v t (by rw [hkind, if_neg hne]; exact ht)
  · have hne : s.root v ≠ a := fun hv => by rw [hfree v hv] at hp; cases hp
    exact hθ.poisoned v (by rw [link_size]; exact hv) (by rw [hkind, if_neg hne]; exact hp)

end Link

theorem SolvedBy.congr (h : s.WellFormed) {θ' : Valuation} (hθ' : s.SolvedBy θ')
    (htidy : ∀ v, (θ v).Tidy) (heq : ∀ v, v < s.size → θ' v = θ v) : s.SolvedBy θ := by
  refine ⟨fun v => ?_, fun v t ht => ?_, fun v hv hp => ?_, htidy⟩
  · rcases Nat.lt_or_ge v s.size with hv | hv
    · rw [← heq v hv, ← heq _ (h.forest.root_lt hv)]; exact hθ'.root v
    · rw [(Forest.root_of_size_le hv).1]
  · have hv : v < s.size := lt_of_kind (by rw [ht]; simp)
    rw [← heq v hv]
    exact (hθ'.bound v t ht).congr h.usable (Ty.Over.mono (h.fits v t ht) fun w hw => (heq w hw).symm)
  · rw [← heq v hv]; exact hθ'.poisoned v hv hp

theorem solvedBy_of_join (hs : s.WellFormed) {a b : Var} (ha : a < s.size) (hb : b < s.size)
    (hra : s.root a = a) (hrb : s.root b = b) (hab : a ≠ b) (hg : s.Grounded)
    (hg' : (s.link a b).Grounded) (hagree : ∀ θ', s.SolvedBy θ' → θ' a = θ' b)
    (hθ : (s.link a b).SolvedBy θ) : s.SolvedBy θ := by
  have hs' : (s.link a b).WellFormed := ⟨link_formed hs.toFormed ha hb hra hrb hab, hs.usable⟩
  obtain ⟨_, hro, _⟩ := link_view hs.forest ha hb hra hrb hab
  have hkind := link_kind hs.forest ha hb hra hrb hab
  -- the solution of `s` with the same unbound classes solves the store after the step too
  obtain ⟨θ', hθ', hfree⟩ := hg.exists_solution hs.toFormed hs.usable hθ.tidy
  have hlink := link_solvedBy hs.forest ha hb hra hrb hab hθ' (hagree θ' hθ')
  have heq := hθ.eq_of_free hlink hg' hs'.toFormed hs'.usable fun v hv => by
    rw [hkind] at hv
    have hroot := hθ.root v
    rw [hro] at hroot
    split at hv
    · rename_i hva
      rw [if_pos hva] at hroot
      rw [← hθ'.root v, hva, hagree θ' hθ', hfree b hv, hrb, hroot]
    · rename_i hva
      rw [if_neg hva] at hroot
      rw [hfree v hv, hroot]
  exact hθ'.congr hs hθ.tidy fun v hv => heq v (by rw [link_size]; exact hv)

end Equations

end Store
end TypeSolver
