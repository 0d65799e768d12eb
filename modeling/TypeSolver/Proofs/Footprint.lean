import TypeSolver.Proofs.Frames
import TypeSolver.Proofs.Independence
import TypeSolver.Proofs.Lifecycle

/-!
# TypeSolver.Proofs.Footprint

The footprint of a unification: the classes that its types lead to, and the variables it makes. A run
is mirrored by itself, so that all variables outside the footprint stand after the run as before it
(`Mirrors.frame`), and what is inside leads to nothing outside (`Mirrors.own_of_reaches`). This holds of every store that the operations keep up, poisoned
classes and circles included, for any table of aliases, and whether or not the types are unified.
-/

namespace TypeSolver

theorem Outcome.Mirrors.of_store? {own : Var → Prop} {ρ : Var → Var} {base s : Store} {n : Nat}
    {o : Outcome} (h : Outcome.Mirrors own ρ base n o o) (ho : o.store? = some s) :
    Store.Mirrors own ρ base s s := by
  cases h with
  | unified _ h => cases ho; exact h
  | failed _ _ h => cases ho; exact h
  | outOfFuel => cases ho

namespace Store

variable {s s' : Store} {x : Var}

/-- Whether the types lead to a class can be searched. -/
theorem spared_iff (hf : s.Forest) (hs : s.Contained) {l r : Ty} (hl : l.Below s.size)
    (hr : r.Below s.size) : (∀ v ∈ l.vars ++ r.vars, ¬ s.Reaches v (s.root x)) ↔
      s.root x ∉ s.reach (.func l r) := by
  have hd : ∀ v ∈ l.vars ++ r.vars, v < s.size := fun v hv =>
    (List.mem_append.mp hv).elim (hl v) (hr v)
  rw [← demand_reaches_iff (d := ⟨l, r, .wholeLine 0⟩) hf hs hd]
  simp only [Demand.Reaches, Demand.vars, not_exists, not_and]

/-- Two types are unified or found different. A variable whose class no variable of the two led to
keeps its representative, what it stands for and its rank, and its class has the members that it had.
The types do not lead to it afterwards either. -/
theorem unify_frame (hf : s.Forest) (hs : s.Contained) {l r : Ty} (hl : l.Below s.size)
    (hr : r.Below s.size) {fuel : Nat} (hend : (unify fuel l r s).store? = some s')
    (hx : x < s.size) (hout : ∀ v ∈ l.vars ++ r.vars, ¬ s.Reaches v (s.root x)) :
    s'.root x = s.root x ∧ s'.content x = s.content x ∧ s'.rank? x = s.rank? x ∧
      (∀ w, s'.root w = s'.root x ↔ s.root w = s.root x) ∧
      ∀ v ∈ l.vars ++ r.vars, ¬ s'.Reaches v (s'.root x) := by
  have hrun := (Call.mirrors_run (c := .types l r) hf hs (hf.root_lt hx)
    ⟨fun v hv => ⟨hout v (List.mem_append_left _ hv), hl v hv⟩,
      fun v hv => ⟨hout v (List.mem_append_right _ hv), hr v hv⟩⟩).of_store? hend
  obtain ⟨hroot, hcontent⟩ := hrun.frame .refl
  have hself : s.Reaches (s'.root x) (s.root x) := by rw [hroot, Reaches, hf.root_root]
  refine ⟨hroot, hcontent, by rw [rank?, rank?, hcontent], fun w => ?_, fun v hv hreach =>
    hrun.own_of_reaches (hout v hv) hreach hself⟩
  by_cases hw : s.Reaches w (s.root x)
  · rw [(hrun.frame hw).1, hroot]
  · -- a class inside the footprint has its representative inside, before and after
    refine iff_of_false (fun heq => hrun.ownRoot w hw (heq ▸ hself)) fun heq => hw ?_
    rw [Reaches, heq]

def packed : Store :=
  ((blank boxes.aliases 6).put 2 (.bound (.app "Box" [.var 3]))).put 4 .poisoned

theorem packed_formed : packed.Formed := by
  refine put_formed (put_formed (formed_blank _ 6) (by decide) (by decide) fun t ht => ?_)
    (by decide) (by decide) fun t ht => ?_
  · cases ht
    simp [Ty.Fits, Ty.over_app, Ty.over_var, (blank_view boxes.aliases 6).2.1]
  · cases ht

/-- The first two types become one record, with a new variable for the rest; the last two differ. No
call touches the box or what is in it. -/
theorem unify_frame_packed :
    (∃ s', unify 12 (.record [("a", .app "Box" [.var 0])] (some 1))
        (.record [("a", .app "Box" [.var 4]), ("b", .int)] (some 5)) packed = .unified s' ∧
      s'.root 3 = 3 ∧ s'.content 2 = .bound (.app "Box" [.var 3]) ∧ ¬ s'.Reaches 1 3) ∧
    ∃ m s', unify 12 (.func (.app "Box" [.var 0]) .int) (.func (.var 1) (.list (.var 4))) packed =
        .failed m s' ∧ s'.root 3 = 3 ∧ s'.content 2 = .bound (.app "Box" [.var 3]) ∧
      ¬ s'.Reaches 1 3 := by
  have hkept : ∀ l r s', l.Below packed.size → r.Below packed.size → 1 ∈ l.vars ++ r.vars →
      (∀ x ∈ [2, 3], packed.root x ∉ packed.reach (.func l r)) →
      (unify 12 l r packed).store? = some s' →
      s'.root 3 = 3 ∧ s'.content 2 = .bound (.app "Box" [.var 3]) ∧ ¬ s'.Reaches 1 3 := by
    intro l r s' hl hr h1 hout hend
    obtain ⟨hf, hs⟩ := And.intro packed_formed.forest packed_formed.contained
    have hframe := fun x hx hmem => unify_frame (x := x) hf hs hl hr hend hx
      ((spared_iff hf hs hl hr).mpr (hout x hmem))
    obtain ⟨hroot, _, _, _, hreach⟩ := hframe 3 (by decide) (by decide)
    exact ⟨hroot, (hframe 2 (by decide) (by decide)).2.1, (hroot ▸ hreach 1 h1 :)⟩
  constructor
  · refine Exists.imp (fun s' h => ⟨h, hkept _ _ s' ?_ ?_ ?_ ?_ (congrArg Outcome.store? h)⟩)
      ⟨_, rfl⟩ <;> decide
  · refine Exists.imp (fun m => Exists.imp fun s' h =>
      ⟨h, hkept _ _ s' ?_ ?_ ?_ ?_ (congrArg Outcome.store? h)⟩) ⟨_, _, rfl⟩ <;> decide

end Store
end TypeSolver
