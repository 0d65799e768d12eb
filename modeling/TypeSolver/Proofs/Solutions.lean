import TypeSolver.Proofs.Bindings
import TypeSolver.Proofs.Meaning

/-!
# TypeSolver.Proofs.Solutions

A store as a system of equations. A valuation solves the store when it gives one meaning to each
class, `error` to the poisoned ones, and to each bound class the meaning of the type it stands
for. Where bindings come to an end, the meanings of the unbound classes can be chosen freely, and
they determine all others (`Grounded.exists_solution`, `SolvedBy.eq_of_free`).

The solution in which each unbound class stands for itself is the `Reading` of the store; all
others come from it by substitution (`SolvedBy.eq_subst`).
-/

namespace TypeSolver

namespace Store

/-- The valuation `θ` respects what the store says about its variables. -/
structure SolvedBy (s : Store) (θ : Valuation) : Prop where
  root : ∀ v, θ (s.root v) = θ v
  bound : ∀ v t, s.kind v = .bound t → Denotes s.aliases θ t (θ v)
  poisoned : ∀ v, v < s.size → s.kind v = .poisoned → θ v = .error
  tidy : ∀ v, (θ v).Tidy

/-- The solution in which each unbound class stands for itself. -/
structure Reading (s : Store) (θ : Valuation) : Prop extends s.SolvedBy θ where
  free : ∀ v, s.kind v = .free → θ v = .var (s.root v)

variable {s : Store}

section Solve

open Classical in
/-- The meanings of all variables, given those of the unbound roots. -/
noncomputable def solve (hg : s.Grounded) (φ : Valuation) : Valuation :=
  hg.fix fun v solved =>
    match s.kind v with
    | .free => φ (s.root v)
    | .poisoned => .error
    | .bound t => Classical.epsilon fun m => Denotes s.aliases
        (fun w => if h : s.Edge v (s.root w) then solved (s.root w) h else .error) t m

variable (hg : s.Grounded) (φ : Valuation)

variable {v : Var}

theorem solve_free (h : s.kind v = .free) : solve hg φ v = φ (s.root v) := by
  rw [solve, hg.fix_eq, h]

theorem solve_poisoned (h : s.kind v = .poisoned) : solve hg φ v = .error := by
  rw [solve, hg.fix_eq, h]

theorem solve_bound_eq {t : Ty} (h : s.kind v = .bound t) : ∃ θ : Valuation,
    (∀ w, s.Edge v (s.root w) → θ w = solve hg φ (s.root w)) ∧
    solve hg φ v = Classical.epsilon fun m => Denotes s.aliases θ t m := by
  refine ⟨_, fun w hw => ?_, by rw [solve, hg.fix_eq, h]⟩
  exact dif_pos hw

end Solve

theorem Grounded.exists_solution (hg : s.Grounded) (h : s.Formed) (hu : s.aliases.Usable)
    {φ : Valuation} (hφ : ∀ r, (φ r).Tidy) :
    ∃ θ, s.SolvedBy θ ∧ ∀ v, s.kind v = .free → θ v = φ (s.root v) := by
  have hbound : ∀ v t, s.kind v = .bound t →
      Denotes s.aliases (fun w => solve hg φ (s.root w)) t (solve hg φ (s.root v)) := by
    intro v t ht
    have hr : s.kind (s.root v) = .bound t := by rw [kind_root h.forest, ht]
    obtain ⟨θ, hθ, heq⟩ := solve_bound_eq hg φ hr
    have hden : Denotes s.aliases θ t (solve hg φ (s.root v)) := by
      rw [heq]
      exact Classical.epsilon_spec (hu.exists_denotes θ t)
    refine hden.congr hu ((h.fits v t ht).restrict fun w hw => (hθ w ?_).symm)
    exact ⟨t, hr, w, hw, rfl⟩
  have htidy : ∀ v, (solve hg φ v).Tidy := by
    intro v
    induction v using hg.induction with
    | _ v ih =>
      cases hk : s.kind v with
      | free => rw [solve_free hg φ hk]; exact hφ _
      | poisoned => rw [solve_poisoned hg φ hk]; exact trivial
      | bound t =>
        obtain ⟨θ, hθ, heq⟩ := solve_bound_eq hg φ hk
        have hden : Denotes s.aliases θ t (solve hg φ v) := by
          rw [heq]
          exact Classical.epsilon_spec (hu.exists_denotes θ t)
        refine hden.tidy hu (V := fun w => s.Edge v (s.root w)) (fun w hw => ?_)
          ((h.fits v t hk).restrict fun w hw => ⟨t, hk, w, hw, rfl⟩)
        rw [hθ w hw]
        exact ih _ hw
  refine ⟨fun v => solve hg φ (s.root v), ⟨fun v => ?_, hbound, fun v _ hv => ?_, fun v => ?_⟩, ?_⟩
  · rw [h.forest.root_root]
  · exact solve_poisoned hg φ (by rw [kind_root h.forest, hv])
  · exact htidy _
  · intro v hv
    have hfree := solve_free hg φ (v := s.root v) (by rw [kind_root h.forest, hv])
    rwa [h.forest.root_root] at hfree

theorem Grounded.mentions (hg : s.Grounded) (h : s.Forest) :
    WellFounded fun w v => ∃ t, s.kind v = .bound t ∧ w ∈ t.vars := by
  have hacc : ∀ r v, s.root v = r → Acc (fun w v => ∃ t, s.kind v = .bound t ∧ w ∈ t.vars) v := by
    intro r
    induction r using hg.induction with
    | _ r ih =>
      rintro v rfl
      refine ⟨_, fun w ⟨t, ht, hw⟩ => ih (s.root w) ?_ w rfl⟩
      exact (edge_root h).mpr ⟨t, ht, w, hw, rfl⟩
  exact ⟨fun v => hacc _ v rfl⟩

variable {θ θ' θ0 : Valuation}

theorem SolvedBy.eq_of_reaches (hθ : s.SolvedBy θ) (hθ' : s.SolvedBy θ') (hg : s.Grounded)
    (h : s.Formed) (hu : s.aliases.Usable) {v : Var} (hv : v < s.size)
    (hfree : ∀ r, s.Reaches v r → s.kind r = .free → θ' r = θ r) : θ' v = θ v := by
  induction v using (hg.mentions h.forest).induction with
  | _ v ih =>
    cases hk : s.kind v with
    | free =>
      rw [← hθ.root v, ← hθ'.root v]
      exact hfree _ .refl (by rw [kind_root h.forest]; exact hk)
    | poisoned => rw [hθ.poisoned v hv hk, hθ'.poisoned v hv hk]
    | bound t =>
      have hfits := h.fits v t hk
      refine (hθ'.bound v t hk).unique ((hθ.bound v t hk).congr hu (hfits.restrict fun w hw => ?_))
      refine ih w ⟨t, hk, hw⟩ (hfits.lt hw) fun r hr => hfree r ?_
      exact .head ((edge_root h.forest).mpr ⟨t, hk, w, hw, rfl⟩) hr

theorem SolvedBy.eq_of_free (hθ : s.SolvedBy θ) (hθ' : s.SolvedBy θ') (hg : s.Grounded)
    (h : s.Formed) (hu : s.aliases.Usable) (hfree : ∀ v, s.kind v = .free → θ' v = θ v) (v : Var)
    (hv : v < s.size) : θ' v = θ v :=
  hθ.eq_of_reaches hθ' hg h hu hv fun r _ => hfree r

theorem Grounded.exists_reading (hg : s.Grounded) (h : s.Formed) (hu : s.aliases.Usable) :
    ∃ θ, s.Reading θ := by
  obtain ⟨θ, hθ, hfree⟩ := hg.exists_solution h hu (φ := .var) fun _ => trivial
  exact ⟨θ, hθ, hfree⟩

theorem Reading.solvedBy_subst {σ : Valuation} (h0 : s.Reading θ0) (h : s.Formed)
    (hu : s.aliases.Usable) (hσ : ∀ r, (σ r).Tidy) : s.SolvedBy fun v => (θ0 v).subst σ := by
  refine ⟨fun v => by rw [h0.root], fun v t hk => ?_, fun v hv hk => ?_, fun v => ?_⟩
  · exact (h0.bound v t hk).subst hu hσ (Ty.Over.mono (h.fits v t hk) fun w _ => ⟨h0.tidy w, rfl⟩)
  · rw [h0.poisoned v hv hk, Meaning.subst]
  · exact Meaning.tidy_subst hσ (h0.tidy v)

/-- Every solution comes from the reading by substitution. -/
theorem SolvedBy.eq_subst (hθ : s.SolvedBy θ) (h0 : s.Reading θ0) (hg : s.Grounded) (h : s.Formed)
    (hu : s.aliases.Usable) : ∀ v, v < s.size → θ v = (θ0 v).subst θ := by
  refine (h0.solvedBy_subst h hu hθ.tidy).eq_of_free hθ hg h hu fun v hk => ?_
  rw [h0.free v hk, Meaning.subst, hθ.root]

theorem SolvedBy.denotes_subst (hθ : s.SolvedBy θ) (h0 : s.Reading θ0) (hg : s.Grounded)
    (h : s.Formed) (hu : s.aliases.Usable) {t : Ty} (ht : t.Fits s.size) {m : Meaning}
    (hm : Denotes s.aliases θ0 t m) : Denotes s.aliases θ t (m.subst θ) :=
  hm.subst hu hθ.tidy (Ty.Over.mono ht fun v hv => ⟨h0.tidy v, hθ.eq_subst h0 hg h hu v hv⟩)

end Store
end TypeSolver
