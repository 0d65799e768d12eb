import TypeSolver.Alias
import TypeSolver.Proofs.Fields

/-!
# TypeSolver.Proofs.Terms

Induction over type terms and signatures. `Ty.All` says that something holds of all parts of a
type, and `Ty.Fits n t`, an instance of it, that `t` belongs to a store of `n` variables: it
mentions no others, and its records list their fields in order.
-/

namespace TypeSolver

theorem sizeOf_snd_lt_of_mem {α β : Type} [SizeOf α] [SizeOf β] {e : α × β} {l : List (α × β)}
    (h : e ∈ l) : sizeOf e.2 < sizeOf l := by
  have h1 := List.sizeOf_lt_of_mem h
  have h2 : sizeOf e.2 < sizeOf e := by obtain ⟨a, b⟩ := e; simp
  omega

namespace Ty

variable {P : Ty → Prop} {t : Ty} {n n' : Nat}

@[induction_eliminator]
theorem induct (var : ∀ v, P (.var v)) (func : ∀ arg ret, P arg → P ret → P (.func arg ret))
    (app : ∀ name args, (∀ a ∈ args, P a) → P (.app name args))
    (record : ∀ fields ext, (∀ f ∈ fields, P f.2) → P (.record fields ext)) (t : Ty) : P t :=
  match t with
  | .var v => var v
  | .func arg ret => func arg ret (induct var func app record arg) (induct var func app record ret)
  | .app name args => app name args fun a _ => induct var func app record a
  | .record fields ext => record fields ext fun f _ => induct var func app record f.2
termination_by t
decreasing_by
  · decreasing_tactic
  · decreasing_tactic
  · rename_i h; have := List.sizeOf_lt_of_mem h; simp; omega
  · rename_i h; have := sizeOf_snd_lt_of_mem h; simp; omega

def isVar : Ty → Bool
  | .var _ => true
  | _ => false

theorem mem_varsList {v : Var} {ts : List Ty} : v ∈ varsList ts ↔ ∃ t ∈ ts, v ∈ t.vars := by
  induction ts with
  | nil => simp [varsList]
  | cons t ts ih => simp [varsList, ih]

theorem mem_varsFields {v : Var} {fs : List (String × Ty)} :
    v ∈ varsFields fs ↔ ∃ f ∈ fs, v ∈ f.2.vars := by
  induction fs with
  | nil => simp [varsFields]
  | cons f fs ih => obtain ⟨k, t⟩ := f; simp [varsFields, ih]

@[simp] theorem mem_vars_var {v w : Var} : v ∈ (Ty.var w).vars ↔ v = w := by simp [vars]

@[simp] theorem mem_vars_func {v : Var} {arg ret : Ty} :
    v ∈ (Ty.func arg ret).vars ↔ v ∈ arg.vars ∨ v ∈ ret.vars := by simp [vars]

@[simp] theorem mem_vars_app {v : Var} {name : String} {args : List Ty} :
    v ∈ (Ty.app name args).vars ↔ ∃ a ∈ args, v ∈ a.vars := by simp [vars, mem_varsList]

@[simp] theorem mem_vars_record {v : Var} {fields : List (String × Ty)} {ext : Option Var} :
    v ∈ (Ty.record fields ext).vars ↔ (∃ f ∈ fields, v ∈ f.2.vars) ∨ ext = some v := by
  cases ext <;> simp [vars, mem_varsFields, eq_comm]

/-- The records of the type are in order, and `P` holds of it and of all its parts; the extension
of a record is a part. -/
inductive All (P : Ty → Prop) : Ty → Prop where
  | var {v : Var} : P (.var v) → All P (.var v)
  | func {arg ret : Ty} : P (.func arg ret) → All P arg → All P ret → All P (.func arg ret)
  | app {name : String} {args : List Ty} : P (.app name args) → (∀ a ∈ args, All P a) →
      All P (.app name args)
  | record {fields : List (String × Ty)} {ext : Option Var} : P (.record fields ext) →
      Assoc.Sorted fields → (∀ f ∈ fields, All P f.2) → (∀ v, ext = some v → P (.var v)) →
      All P (.record fields ext)

theorem All.self (h : t.All P) : P t := by
  cases h <;> assumption

theorem All.imp {Q : Ty → Prop} (h : t.All P) (hPQ : ∀ u, P u → Q u) : t.All Q := by
  induction h with
  | var h => exact .var (hPQ _ h)
  | func h _ _ iha ihr => exact .func (hPQ _ h) iha ihr
  | app h _ ih => exact .app (hPQ _ h) ih
  | record h hs _ hext ih => exact .record (hPQ _ h) hs ih fun v hv => hPQ _ (hext v hv)

def Over (V : Var → Prop) (t : Ty) : Prop := t.All fun u => ∀ v, u = .var v → V v

section Over

variable {V W : Var → Prop}

theorem over_var {v : Var} : (Ty.var v).Over V ↔ V v :=
  ⟨fun h => h.self v rfl, fun h => .var fun _ hw => by cases hw; exact h⟩

theorem over_func {arg ret : Ty} : (Ty.func arg ret).Over V ↔ arg.Over V ∧ ret.Over V :=
  ⟨fun h => by cases h with | func _ ha hr => exact ⟨ha, hr⟩,
    fun h => .func (fun _ hw => by cases hw) h.1 h.2⟩

theorem over_app {name : String} {args : List Ty} :
    (Ty.app name args).Over V ↔ ∀ a ∈ args, a.Over V :=
  ⟨fun h => by cases h with | app _ ha => exact ha, fun h => .app (fun _ hw => by cases hw) h⟩

variable {ext ext' : Option Var} {fs gs : List (String × Ty)}

theorem over_record {fields : List (String × Ty)} : (Ty.record fields ext).Over V ↔
      Assoc.Sorted fields ∧ (∀ f ∈ fields, f.2.Over V) ∧ ∀ v, ext = some v → V v := by
  constructor
  · intro h
    cases h with
    | record _ hs hf hext => exact ⟨hs, hf, fun v hv => hext v hv v rfl⟩
  · rintro ⟨hs, hf, hext⟩
    exact .record (fun _ hw => by cases hw) hs hf fun v hv w hw => by cases hw; exact hext v hv

theorem Over.mem (h : t.Over V) {v : Var} (hv : v ∈ t.vars) : V v := by
  induction t with
  | var w => rw [mem_vars_var] at hv; exact hv ▸ over_var.mp h
  | func arg ret iha ihr =>
    obtain ⟨ha, hr⟩ := over_func.mp h
    exact (mem_vars_func.mp hv).elim (iha ha) (ihr hr)
  | app name args ih =>
    obtain ⟨a, ha, hv⟩ := mem_vars_app.mp hv
    exact ih a ha (over_app.mp h a ha) hv
  | record fields ext ih =>
    obtain ⟨_, hf, hext⟩ := over_record.mp h
    rcases mem_vars_record.mp hv with ⟨f, hmem, hv⟩ | hv
    · exact ih f hmem (hf f hmem) hv
    · exact hext v hv

theorem Over.mono (h : t.Over V) (hVW : ∀ v, V v → W v) : t.Over W :=
  h.imp fun _ hu v hv => hVW v (hu v hv)

/-- An ordered type is over its own variables. -/
theorem Over.restrict (h : t.Over V) (hW : ∀ v ∈ t.vars, W v) : t.Over W := by
  induction t with
  | var v => exact over_var.mpr (hW v (by simp))
  | func arg ret iha ihr =>
    obtain ⟨ha, hr⟩ := over_func.mp h
    exact over_func.mpr ⟨iha ha fun v hv => hW v (by simp [hv]), ihr hr fun v hv => hW v (by simp [hv])⟩
  | app name args ih =>
    exact over_app.mpr fun a ha => ih a ha (over_app.mp h a ha) fun v hv =>
      hW v (mem_vars_app.mpr ⟨a, ha, hv⟩)
  | record fields ext ih =>
    obtain ⟨hs, hf, _⟩ := over_record.mp h
    refine over_record.mpr ⟨hs, fun f hmem => ih f hmem (hf f hmem) fun v hv => ?_, fun v hv => ?_⟩
    · exact hW v (mem_vars_record.mpr (.inl ⟨f, hmem, hv⟩))
    · exact hW v (mem_vars_record.mpr (.inr hv))

theorem over_union (hf : (Ty.record fs ext).Over V) (hg : (Ty.record gs ext').Over V) :
    (Ty.record (Assoc.union fs gs) ext').Over V := by
  obtain ⟨hs, hfs, _⟩ := over_record.mp hf
  obtain ⟨hs', hgs, hext⟩ := over_record.mp hg
  have hsort : Assoc.Sorted (Assoc.union fs gs) := Assoc.sorted_union hs'
  refine over_record.mpr ⟨hsort, ?_, hext⟩
  rintro ⟨k, t⟩ hmem
  have hget := Assoc.get?_of_mem hsort hmem
  rw [Assoc.get?_union hs, Option.or_eq_some_iff] at hget
  rcases hget with h | ⟨_, h⟩
  · exact hfs _ (Assoc.mem_of_get? h)
  · exact hgs _ (Assoc.mem_of_get? h)

theorem over_without (hf : (Ty.record fs ext).Over V) (hext' : ∀ v, ext' = some v → V v) :
    (Ty.record (Assoc.without fs gs) ext').Over V := by
  obtain ⟨hs, hfs, _⟩ := over_record.mp hf
  exact over_record.mpr
    ⟨Assoc.sorted_without hs gs, fun f hf => hfs f (List.mem_filter.mp hf).1, hext'⟩

end Over

/-- The type mentions only the first `n` variables, and its records are in order. -/
def Fits (n : Nat) (t : Ty) : Prop := t.Over (· < n)

theorem Fits.lt (h : t.Fits n) {v : Var} (hv : v ∈ t.vars) : v < n :=
  Over.mem h hv

theorem Fits.mono (h : t.Fits n) (hn : n ≤ n') : t.Fits n' :=
  Over.mono h fun _ hv => Nat.lt_of_lt_of_le hv hn

def Below (n : Nat) (t : Ty) : Prop := ∀ v ∈ t.vars, v < n

instance (n : Nat) (t : Ty) : Decidable (t.Below n) := inferInstanceAs (Decidable (∀ v ∈ t.vars, v < n))

theorem Below.mono (h : t.Below n) (hn : n ≤ n') : t.Below n' := fun v hv =>
  Nat.lt_of_lt_of_le (h v hv) hn

theorem Fits.below (h : t.Fits n) : t.Below n := fun _ hv => h.lt hv

end Ty

namespace Signature

@[induction_eliminator]
theorem induct {P : Signature → Prop} (var : ∀ name, P (.var name))
    (con : ∀ name args, (∀ a ∈ args, P a) → P (.con name args))
    (func : ∀ arg ret, P arg → P ret → P (.func arg ret))
    (record : ∀ fields ext, (∀ f ∈ fields, P f.2) → P (.record fields ext)) (t : Signature) :
    P t :=
  match t with
  | .var name => var name
  | .con name args => con name args fun a _ => induct var con func record a
  | .func arg ret => func arg ret (induct var con func record arg) (induct var con func record ret)
  | .record fields ext => record fields ext fun f _ => induct var con func record f.2
termination_by t
decreasing_by
  · rename_i h; have := List.sizeOf_lt_of_mem h; simp; omega
  · decreasing_tactic
  · decreasing_tactic
  · rename_i h; have := sizeOf_snd_lt_of_mem h; simp; omega

inductive Ordered : Signature → Prop where
  | var {name : String} : Ordered (.var name)
  | con {name : String} {args : List Signature} : (∀ a ∈ args, Ordered a) → Ordered (.con name args)
  | func {arg ret : Signature} : Ordered arg → Ordered ret → Ordered (.func arg ret)
  | record {fields : List (String × Signature)} {ext : Option String} : Assoc.Sorted fields →
      (∀ f ∈ fields, Ordered f.2) → Ordered (.record fields ext)

end Signature
end TypeSolver
