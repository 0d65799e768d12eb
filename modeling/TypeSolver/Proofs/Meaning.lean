import TypeSolver.NamedType
import TypeSolver.Proofs.Expansion

/-!
# TypeSolver.Proofs.Meaning

What a type means once its variables have meanings: a tree without bindings and without aliases,
in which records hold all their fields. `Denotes table θ t m` says that `t` means `m` when each
variable `v` means `θ v`; an extension is put behind the fields of its record, as a row.

Every type has exactly one meaning (`Denotes.unique`, `Usable.exists_denotes`), and substituting
in the meanings of the variables substitutes in the meaning of the type (`Denotes.subst`). The
last needs that `close` is associative, which holds for fields in order (`close_close`).
-/

namespace TypeSolver

/-- The variables that are left stand for themselves. -/
inductive Meaning where
  | var (r : Var)
  | func (arg ret : Meaning)
  | app (name : String) (args : List Meaning)
  | record (fields : List (String × Meaning)) (ext : Option Var)
  | error
deriving Inhabited

abbrev Valuation := Var → Meaning

namespace Meaning

@[induction_eliminator]
theorem induct {P : Meaning → Prop} (var : ∀ r, P (.var r))
    (func : ∀ arg ret, P arg → P ret → P (.func arg ret))
    (app : ∀ name args, (∀ a ∈ args, P a) → P (.app name args))
    (record : ∀ fields ext, (∀ f ∈ fields, P f.2) → P (.record fields ext)) (error : P .error)
    (m : Meaning) : P m :=
  match m with
  | .var r => var r
  | .func arg ret =>
    func arg ret (induct var func app record error arg) (induct var func app record error ret)
  | .app name args => app name args fun a _ => induct var func app record error a
  | .record fields ext => record fields ext fun f _ => induct var func app record error f.2
  | .error => error
termination_by m
decreasing_by
  · decreasing_tactic
  · decreasing_tactic
  · rename_i h; have := List.sizeOf_lt_of_mem h; simp; omega
  · rename_i h; have := sizeOf_snd_lt_of_mem h; simp; omega

/-- The tree as it is shown: a variable is called `t` with its position in the store. -/
def named : Meaning → NamedType
  | .var r => .var ("t" ++ toString r)
  | .func arg ret => .func arg.named ret.named
  | .app name args => .app name (args.map named)
  | .record fields ext =>
    .record (fields.map fun f => (f.1, f.2.named)) (ext.map fun r => "t" ++ toString r)
  | .error => .error
termination_by m => m
decreasing_by
  · decreasing_tactic
  · decreasing_tactic
  · rename_i h; have := List.sizeOf_lt_of_mem h; simp; omega
  · rename_i h; have := sizeOf_snd_lt_of_mem h; simp; omega

theorem named_record (fields : List (String × Meaning)) (ext : Option Var) :
    (record fields ext).named =
      .record (Assoc.mapValues named fields) (ext.map fun r => "t" ++ toString r) := by
  rw [named, Assoc.mapValues]

theorem name_inj {r r' : Var} (h : "t" ++ toString r = "t" ++ toString r') : r = r' := by
  have hrepr : r.repr = r'.repr := by simpa using h
  have := congrArg (fun s => Nat.ofDigitChars 10 s.toList 0) hrepr
  simpa [Nat.repr] using this

variable {m : Meaning} {fs gs fields : List (String × Meaning)} {σ : Valuation}

/-- Different trees are shown differently. -/
theorem named_inj {m' : Meaning} (h : m.named = m'.named) : m = m' := by
  induction m generalizing m' with
  | var r =>
    cases m' <;> simp only [named, named_record, reduceCtorEq, NamedType.var.injEq] at h
    rw [name_inj h]
  | func arg ret iha ihr =>
    cases m' <;> simp only [named, named_record, reduceCtorEq, NamedType.func.injEq] at h
    rw [iha h.1, ihr h.2]
  | app name args ih =>
    cases m' <;> simp only [named, named_record, reduceCtorEq, NamedType.app.injEq] at h
    rw [h.1, eq_of_map_eq (fun a ha b => ih a ha) h.2]
  | record fields ext ih =>
    cases m' <;> simp only [named, named_record, reduceCtorEq, NamedType.record.injEq] at h
    have hfields := eq_of_map_eq (fun f hf g hfg => ?_) h.1
    · rw [hfields, Option.map_injective (fun r r' => name_inj) h.2]
    · obtain ⟨hk, hv⟩ := Prod.ext_iff.mp hfg
      exact Prod.ext hk (ih f hf hv)
  | error =>
    cases m' <;> simp only [named, named_record, reduceCtorEq] at h
    rfl

/-- Put a meaning behind the fields of a record. What is no row adds nothing. -/
def close (fields : List (String × Meaning)) : Meaning → Meaning
  | .var r => .record fields (some r)
  | .record more rest => .record (Assoc.union fields more) rest
  | _ => .record fields none

/-- A record with the meaning of its extension, if it has one. -/
def row (fields : List (String × Meaning)) : Option Meaning → Meaning
  | none => .record fields none
  | some m => close fields m

def subst (σ : Valuation) : Meaning → Meaning
  | .var r => σ r
  | .func arg ret => .func (arg.subst σ) (ret.subst σ)
  | .app name args => .app name (args.map (subst σ))
  | .record fields ext => row (fields.map fun f => (f.1, f.2.subst σ)) (ext.map σ)
  | .error => .error
termination_by m => m
decreasing_by
  · decreasing_tactic
  · decreasing_tactic
  · rename_i h; have := List.sizeOf_lt_of_mem h; simp; omega
  · rename_i h; have := sizeOf_snd_lt_of_mem h; simp; omega

theorem subst_record (σ : Valuation) (fields : List (String × Meaning)) (ext : Option Var) :
    (record fields ext).subst σ = row (Assoc.mapValues (subst σ) fields) (ext.map σ) := by
  rw [subst, Assoc.mapValues]

/-- A record lists its fields in order. -/
def Tidy : Meaning → Prop
  | .record fields _ => Assoc.Sorted fields
  | _ => True

theorem tidy_close (hf : Assoc.Sorted fields) (hm : m.Tidy) : (close fields m).Tidy := by
  cases m with
  | record more rest => exact Assoc.sorted_union hm
  | _ => exact hf

theorem tidy_row (hf : Assoc.Sorted fields) {m : Option Meaning} (hm : ∀ x, m = some x → x.Tidy) :
    (row fields m).Tidy := by
  cases m with
  | none => exact hf
  | some m => exact tidy_close hf (hm m rfl)

theorem close_close (hf : Assoc.Sorted fs) (hg : Assoc.Sorted gs) (hm : m.Tidy) :
    close fs (close gs m) = close (Assoc.union fs gs) m := by
  cases m with
  | record more rest =>
    simp only [close]
    rw [Assoc.union_assoc hf hg hm]
  | _ => rfl

theorem close_row (hf : Assoc.Sorted fs) (hg : Assoc.Sorted gs) {m : Option Meaning}
    (hm : ∀ x, m = some x → x.Tidy) : close fs (row gs m) = row (Assoc.union fs gs) m := by
  cases m with
  | none => rfl
  | some m => exact close_close hf hg (hm m rfl)

theorem subst_close (hσ : ∀ r, (σ r).Tidy) (hf : Assoc.Sorted fields) (hm : m.Tidy) :
    (close fields m).subst σ = close (Assoc.mapValues (subst σ) fields) (m.subst σ) := by
  cases m with
  | var r => rw [close, subst_record, subst]; rfl
  | func arg ret => simp only [close, subst_record, subst]; rfl
  | app name args => simp only [close, subst_record, subst]; rfl
  | error => simp only [close, subst_record, subst]; rfl
  | record more rest =>
    rw [close, subst_record, subst_record, Assoc.mapValues_union, close_row]
    · exact Assoc.sorted_mapValues.mpr hf
    · exact Assoc.sorted_mapValues.mpr hm
    · intro x hx
      obtain ⟨r, _, rfl⟩ := Option.map_eq_some_iff.mp hx
      exact hσ r

theorem subst_row (hσ : ∀ r, (σ r).Tidy) (hf : Assoc.Sorted fields) {m : Option Meaning}
    (hm : ∀ x, m = some x → x.Tidy) :
    (row fields m).subst σ = row (Assoc.mapValues (subst σ) fields) (m.map (subst σ)) := by
  cases m with
  | none => rw [row, subst_record]; rfl
  | some m => exact subst_close hσ hf (hm m rfl)

theorem tidy_subst (hσ : ∀ r, (σ r).Tidy) (hm : m.Tidy) : (m.subst σ).Tidy := by
  cases m with
  | var r => rw [subst]; exact hσ r
  | func => rw [subst]; exact trivial
  | app => rw [subst]; exact trivial
  | error => rw [subst]; exact trivial
  | record fields ext =>
    rw [subst_record]
    refine tidy_row (Assoc.sorted_mapValues.mpr hm) fun x hx => ?_
    obtain ⟨r, _, rfl⟩ := Option.map_eq_some_iff.mp hx
    exact hσ r

end Meaning

open Meaning in
/-- The type `t` means `m` when each variable `v` means `θ v`. -/
inductive Denotes (table : AliasTable) (θ : Valuation) : Ty → Meaning → Prop where
  | var (v : Var) : Denotes table θ (.var v) (θ v)
  | func {arg ret : Ty} {a r : Meaning} : Denotes table θ arg a → Denotes table θ ret r →
      Denotes table θ (.func arg ret) (.func a r)
  | expanded {name : String} {args : List Ty} {t : Ty} {m : Meaning} :
      table.expand name args = some (.ok t) → Denotes table θ t m →
      Denotes table θ (.app name args) m
  | app {name : String} {args : List Ty} {ms : List Meaning} :
      (∀ t, table.expand name args ≠ some (.ok t)) → args.length = ms.length →
      (∀ a m, (a, m) ∈ args.zip ms → Denotes table θ a m) →
      Denotes table θ (.app name args) (.app name ms)
  | record {fields : List (String × Ty)} {ext : Option Var} {ms : List (String × Meaning)} :
      Assoc.keys fields = Assoc.keys ms →
      (∀ k t m, ((k, t), (k, m)) ∈ fields.zip ms → Denotes table θ t m) →
      Denotes table θ (.record fields ext) (row ms (ext.map θ))

namespace Denotes

open Meaning

variable {table : AliasTable} {θ : Valuation}

variable {m : Meaning} {name : String} {args : List Ty} {t : Ty} {θ' : Valuation}

theorem var_iff {v : Var} : Denotes table θ (.var v) m ↔ m = θ v :=
  ⟨fun h => by cases h; rfl, fun h => h ▸ .var v⟩

theorem func_iff {arg ret : Ty} : Denotes table θ (.func arg ret) m ↔
    ∃ a r, m = .func a r ∧ Denotes table θ arg a ∧ Denotes table θ ret r :=
  ⟨fun h => by cases h with | func ha hr => exact ⟨_, _, rfl, ha, hr⟩,
    fun ⟨_, _, hm, ha, hr⟩ => hm ▸ .func ha hr⟩

theorem expanded_iff (hex : table.expand name args = some (.ok t)) :
    Denotes table θ (.app name args) m ↔ Denotes table θ t m := by
  constructor
  · intro h
    cases h with
    | expanded hex' h => rw [hex] at hex'; cases hex'; exact h
    | app hne => exact absurd hex (hne t)
  · exact .expanded hex

theorem app_iff (hne : ∀ t, table.expand name args ≠ some (.ok t)) :
    Denotes table θ (.app name args) m ↔
      ∃ ms, m = .app name ms ∧ List.Forall₂ (Denotes table θ) args ms := by
  constructor
  · intro h
    cases h with
    | expanded hex _ => exact absurd hex (hne _)
    | app _ hlen h => exact ⟨_, rfl, forall₂_of_zip hlen h⟩
  · rintro ⟨ms, rfl, h⟩
    obtain ⟨hlen, h⟩ := List.forall₂_iff_zip.mp h
    exact .app hne hlen fun a m hp => h hp

theorem record_iff {fields : List (String × Ty)} {ext : Option Var} :
    Denotes table θ (.record fields ext) m ↔
      ∃ ms, m = row ms (ext.map θ) ∧ Assoc.Related (Denotes table θ) fields ms := by
  constructor
  · intro h
    cases h with
    | record hk h => exact ⟨_, rfl, Assoc.related_of_zip hk h⟩
  · rintro ⟨ms, rfl, h⟩
    exact .record h.keys_eq fun k t m hp => ((List.forall₂_iff_zip.mp h).2 hp).2

theorem unique {m' : Meaning} (h : Denotes table θ t m) (h' : Denotes table θ t m') : m = m' := by
  induction h generalizing m' with
  | var v => exact (var_iff.mp h').symm
  | func _ _ iha ihr =>
    obtain ⟨a', r', rfl, ha, hr⟩ := func_iff.mp h'
    rw [iha ha, ihr hr]
  | expanded hex _ ih => exact ih ((expanded_iff hex).mp h')
  | app hne hlen _ ih =>
    obtain ⟨ms', rfl, hms⟩ := (app_iff hne).mp h'
    rw [forall₂_unique (forall₂_of_zip hlen fun a m hp _ => ih a m hp) hms]
  | record hk _ ih =>
    obtain ⟨ms', rfl, hms⟩ := record_iff.mp h'
    rw [(Assoc.related_of_zip hk fun k t m hp _ => ih k t m hp).unique hms]

theorem tidy (hu : table.Usable) {V : Var → Prop} (hθ : ∀ v, V v → (θ v).Tidy)
    (h : Denotes table θ t m) (ht : t.Over V) : m.Tidy := by
  induction h with
  | var v => exact hθ v (Ty.over_var.mp ht)
  | func => exact trivial
  | expanded hex _ ih => exact ih (hu.expand_over hex (Ty.over_app.mp ht))
  | app => exact trivial
  | record hk _ _ =>
    obtain ⟨hs, _, hext⟩ := Ty.over_record.mp ht
    refine tidy_row (by rwa [Assoc.Sorted, ← hk]) fun x hx => ?_
    obtain ⟨v, hv, rfl⟩ := Option.map_eq_some_iff.mp hx
    exact hθ v (hext v hv)

theorem congr (hu : table.Usable) (h : Denotes table θ t m) (ht : t.Over fun v => θ' v = θ v) :
    Denotes table θ' t m := by
  induction h with
  | var v => rw [← Ty.over_var.mp ht]; exact .var v
  | func _ _ iha ihr =>
    obtain ⟨ha, hr⟩ := Ty.over_func.mp ht
    exact .func (iha ha) (ihr hr)
  | expanded hex _ ih =>
    exact .expanded hex (ih (hu.expand_over hex (Ty.over_app.mp ht)))
  | app hne hlen _ ih =>
    exact (app_iff hne).mpr ⟨_, rfl, forall₂_of_mem (forall₂_of_zip hlen ih) (Ty.over_app.mp ht)⟩
  | @record _ ext _ hk _ ih =>
    obtain ⟨_, hf, hext⟩ := Ty.over_record.mp ht
    refine record_iff.mpr ⟨_, ?_, (Assoc.related_of_zip hk ih).of_mem hf⟩
    cases ext with
    | none => rfl
    | some v => simp only [Option.map_some, hext v rfl]

theorem subst (hu : table.Usable) {σ : Valuation} (hσ : ∀ r, (σ r).Tidy) (h : Denotes table θ t m)
    (ht : t.Over fun v => (θ v).Tidy ∧ θ' v = (θ v).subst σ) : Denotes table θ' t (m.subst σ) := by
  induction h with
  | var v => rw [← (Ty.over_var.mp ht).2]; exact .var v
  | func _ _ iha ihr =>
    obtain ⟨ha, hr⟩ := Ty.over_func.mp ht
    rw [Meaning.subst]
    exact .func (iha ha) (ihr hr)
  | expanded hex _ ih =>
    exact .expanded hex (ih (hu.expand_over hex (Ty.over_app.mp ht)))
  | app hne hlen _ ih =>
    rw [Meaning.subst]
    refine (app_iff hne).mpr ⟨_, rfl, ?_⟩
    rw [List.forall₂_map_right_iff]
    exact forall₂_of_mem (forall₂_of_zip hlen ih) (Ty.over_app.mp ht)
  | @record _ ext _ hk _ ih =>
    obtain ⟨hs, hf, hext⟩ := Ty.over_record.mp ht
    rw [subst_row hσ (by rwa [Assoc.Sorted, ← hk])]
    · refine record_iff.mpr ⟨_, ?_, ((Assoc.related_of_zip hk ih).of_mem hf).mapValues⟩
      cases ext with
      | none => rfl
      | some v => simp only [Option.map_some, (hext v rfl).2]
    · intro x hx
      obtain ⟨v, hv, rfl⟩ := Option.map_eq_some_iff.mp hx
      exact (hext v hv).1

theorem union {fs more : List (String × Ty)} {rest : Option Var} {ms : List (String × Meaning)}
    (hθ : ∀ v, (θ v).Tidy) (hf : Assoc.Sorted fs) (hmore : Assoc.Sorted more)
    (hms : Assoc.Related (Denotes table θ) fs ms) (hm : Denotes table θ (.record more rest) m) :
    Denotes table θ (.record (Assoc.union fs more) rest) (close ms m) := by
  obtain ⟨ms', rfl, hms'⟩ := record_iff.mp hm
  refine record_iff.mpr ⟨Assoc.union ms ms', ?_, hms.union hms'⟩
  refine close_row (hms.sorted_iff.mp hf) (hms'.sorted_iff.mp hmore) fun x hx => ?_
  obtain ⟨w, _, rfl⟩ := Option.map_eq_some_iff.mp hx
  exact hθ w

end Denotes

namespace AliasTable

variable {table : AliasTable} {θ : Valuation}

theorem Usable.exists_denotes (h : table.Usable) (θ : Valuation) (t : Ty) :
    ∃ m, Denotes table θ t m := by
  refine induction_of_grounded (P := fun t => ∃ m, Denotes table θ t m) h.grounded ?_ ?_ ?_ ?_
    fun v _ => ⟨_, .var v⟩
  · rintro arg ret ⟨a, ha⟩ ⟨r, hr⟩
    exact ⟨_, .func ha hr⟩
  · refine fun fields ext => ⟨fun ⟨m, hm⟩ => ⟨fun f hf => ?_, fun v _ => ⟨_, .var v⟩⟩, fun h => ?_⟩
    · obtain ⟨ms, _, hms⟩ := Denotes.record_iff.mp hm
      obtain ⟨f', _, _, hf'⟩ := exists_of_forall₂_left hms hf
      exact ⟨_, hf'⟩
    · obtain ⟨ms, hms⟩ := Assoc.exists_related h.1
      exact ⟨_, Denotes.record_iff.mpr ⟨ms, rfl, hms⟩⟩
  · intro name args hne hargs
    obtain ⟨ms, hms⟩ := exists_forall₂ hargs
    exact ⟨_, (Denotes.app_iff hne).mpr ⟨ms, rfl, hms⟩⟩
  · rintro name args t hex ⟨m, hm⟩
    exact ⟨m, .expanded hex hm⟩

theorem head_denotes {n : Nat} {t u : Ty} (h : table.head n t = some (.settled u)) {m : Meaning} :
    Denotes table θ t m ↔ Denotes table θ u m := by
  refine head_induction (P := fun t => Denotes table θ t m ↔ _) h (fun _ heq _ => ?_)
    (fun _ heq => by cases heq) fun _ _ _ hex ih => (Denotes.expanded_iff hex).trans ih
  cases heq
  rfl

end AliasTable

def Same (table : AliasTable) (θ : Valuation) (l r : Ty) : Prop :=
  ∃ m, Denotes table θ l m ∧ Denotes table θ r m

namespace Same

variable {table : AliasTable} {θ : Valuation} {l r t : Ty}

theorem symm (h : Same table θ l r) : Same table θ r l := h.imp fun _ => And.symm

theorem trans (h : Same table θ l r) (h' : Same table θ r t) : Same table θ l t := by
  obtain ⟨m, hl, hr⟩ := h
  obtain ⟨m', hr', ht⟩ := h'
  exact ⟨m, hl, hr.unique hr' ▸ ht⟩

theorem func {a b c d : Ty} (h : Same table θ a c) (h' : Same table θ b d) :
    Same table θ (.func a b) (.func c d) := by
  obtain ⟨m, ha, hc⟩ := h
  obtain ⟨m', hb, hd⟩ := h'
  exact ⟨_, .func ha hb, .func hc hd⟩

theorem exists_meanings {as bs : List Ty} (hlen : as.length = bs.length)
    (h : ∀ q ∈ as.zip bs, Same table θ q.1 q.2) :
    ∃ ms, List.Forall₂ (Denotes table θ) as ms ∧ List.Forall₂ (Denotes table θ) bs ms := by
  induction as generalizing bs with
  | nil => cases bs with
    | nil => exact ⟨[], .nil, .nil⟩
    | cons b bs => simp at hlen
  | cons a as ih => cases bs with
    | nil => simp at hlen
    | cons b bs =>
      obtain ⟨m, ha, hb⟩ := h (a, b) (by simp)
      obtain ⟨ms, has, hbs⟩ := ih (by simpa using hlen) fun q hq => h q (by simp [hq])
      exact ⟨m :: ms, .cons ha has, .cons hb hbs⟩

end Same

end TypeSolver
