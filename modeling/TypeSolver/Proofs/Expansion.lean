import Mathlib.Data.Set.Finite.List
import Mathlib.Logic.Relation
import Mathlib.Order.WellFounded
import TypeSolver.Environment
import TypeSolver.Proofs.Terms

/-!
# TypeSolver.Proofs.Expansion

Aliases come to an end. A table is `Usable` when the bodies of its aliases are ordered and the
names they mention can be followed only finitely often; every table that an environment accepts
is (`Environment.aliasTable_usable`), because the search for a circle finds every name that an
alias leads to (`mem_reached`).

`induction_of_grounded` is induction over types with aliases: what passes from the parts of a type
to the type, and from the expansion of an alias to the alias, holds of every type.
-/

namespace TypeSolver

open Relation

theorem wellFounded_of_acyclic {α : Type} {E : α → α → Prop} {S : Set α} (hS : S.Finite)
    (hE : ∀ a b, E a b → a ∈ S) (hac : ∀ a, ¬ TransGen E a a) : WellFounded fun b a => E a b := by
  have : Finite S := hS
  have hirr : Std.Irrefl fun a b : S => TransGen E b.val a.val := ⟨fun a => hac a⟩
  have hwf : WellFounded fun a b : S => TransGen E b.val a.val :=
    Finite.wellFounded_of_trans_of_irrefl _
  have hin : ∀ a : S, Acc (fun b a => E a b) a.val := by
    intro a
    induction a using hwf.induction with
    | _ a ih =>
      refine ⟨_, fun b hab => ?_⟩
      by_cases hb : b ∈ S
      · exact ih ⟨b, hb⟩ (.single hab)
      · exact ⟨_, fun c hbc => absurd (hE b c hbc) hb⟩
  refine ⟨fun a => ?_⟩
  by_cases ha : a ∈ S
  · exact hin ⟨a, ha⟩
  · exact ⟨_, fun b hab => absurd (hE a b hab) ha⟩

namespace Signature

theorem toTyList_ok {σ : List (String × Ty)} {es : List Signature} {ts : List Ty} :
    toTyList σ es = .ok ts ↔ List.Forall₂ (fun e t => e.toTy σ = .ok t) es ts := by
  induction es generalizing ts with
  | nil => simp [toTyList, eq_comm]
  | cons e es ih =>
    rw [toTyList]
    cases he : e.toTy σ with
    | error x => simp [List.forall₂_cons_left_iff, he]
    | ok t =>
      cases hes : toTyList σ es with
      | error x =>
        have hn : ∀ us, ¬ List.Forall₂ (fun e t => e.toTy σ = .ok t) es us := fun us h => by
          rw [← ih, hes] at h; cases h
        simp [List.forall₂_cons_left_iff, hn]
      | ok us =>
        have hus := ih.mp hes
        simp only [Except.ok.injEq, List.forall₂_cons_left_iff]
        constructor
        · rintro rfl; exact ⟨t, us, he, hus, rfl⟩
        · rintro ⟨t', us', ht', hus', rfl⟩
          rw [he] at ht'
          rw [← ih, hes] at hus'
          cases ht'; cases hus'; rfl

theorem toTyFields_ok {σ : List (String × Ty)} {fs : List (String × Signature)}
    {gs : List (String × Ty)} :
    toTyFields σ fs = .ok gs ↔ Assoc.Related (fun e t => e.toTy σ = .ok t) fs gs := by
  induction fs generalizing gs with
  | nil => simp [toTyFields, Assoc.Related, eq_comm]
  | cons f fs ih =>
    obtain ⟨k, e⟩ := f
    rw [toTyFields]
    cases he : e.toTy σ with
    | error x => simp [Assoc.Related, List.forall₂_cons_left_iff, he]
    | ok t =>
      cases hes : toTyFields σ fs with
      | error x =>
        have hn : ∀ us, ¬ Assoc.Related (fun e t => e.toTy σ = .ok t) fs us := fun us h => by
          rw [← ih, hes] at h; cases h
        simp only [Assoc.Related] at hn
        simp [Assoc.Related, List.forall₂_cons_left_iff, hn]
      | ok us =>
        have hus := ih.mp hes
        simp only [Except.ok.injEq, Assoc.Related, List.forall₂_cons_left_iff]
        constructor
        · rintro rfl; exact ⟨(k, t), us, ⟨rfl, he⟩, hus, rfl⟩
        · rintro ⟨⟨k', t'⟩, us', ⟨rfl, ht'⟩, hus', rfl⟩
          rw [he] at ht'
          have hus' := ih.mpr hus'
          rw [hes] at hus'
          cases ht'; cases hus'; rfl

theorem mem_constructorsList {c : String} {es : List Signature} :
    c ∈ constructorsList es ↔ ∃ e ∈ es, c ∈ e.constructors := by
  induction es with
  | nil => simp [constructorsList]
  | cons e es ih => simp [constructorsList, ih]

theorem mem_constructorsFields {c : String} {fs : List (String × Signature)} :
    c ∈ constructorsFields fs ↔ ∃ f ∈ fs, c ∈ f.2.constructors := by
  induction fs with
  | nil => simp [constructorsFields]
  | cons f fs ih => obtain ⟨k, e⟩ := f; simp [constructorsFields, ih]

theorem extend_ok {fields : List (String × Ty)} {name : String} {found : Option Ty} {t : Ty} :
    extend fields name found = .ok t ↔
      (∃ v, found = some (.var v) ∧ t = .record fields (some v)) ∨
      ∃ more rest, found = some (.record more rest) ∧
        t = .record (Assoc.union fields more) rest := by
  cases found with
  | none => simp [extend]
  | some u => cases u <;> simp [extend, eq_comm]

section Described

variable {σ : List (String × Ty)} {t : Ty}

theorem toTy_var {x : String} : (var x).toTy σ = .ok t ↔ Assoc.get? σ x = some t := by
  rw [toTy]
  cases Assoc.get? σ x <;> simp

theorem toTy_con {name : String} {args : List Signature} : (con name args).toTy σ = .ok t ↔
    ∃ ts, List.Forall₂ (fun e t => e.toTy σ = .ok t) args ts ∧ t = .app name ts := by
  simp only [← toTyList_ok]
  rw [toTy]
  cases toTyList σ args <;> simp [eq_comm]

theorem toTy_func {arg ret : Signature} : (func arg ret).toTy σ = .ok t ↔
    ∃ a r, arg.toTy σ = .ok a ∧ ret.toTy σ = .ok r ∧ t = .func a r := by
  rw [toTy]
  cases arg.toTy σ <;> cases ret.toTy σ <;> simp [eq_comm]

theorem toTy_record {fields : List (String × Signature)} {ext : Option String} :
    (record fields ext).toTy σ = .ok t ↔
      ∃ fs : List (String × Ty), Assoc.Related (fun e t => e.toTy σ = .ok t) fields fs ∧
        match ext with
        | none => t = .record fs none
        | some x => extend fs x (Assoc.get? σ x) = .ok t := by
  simp only [← toTyFields_ok]
  rw [toTy]
  cases toTyFields σ fields <;> cases ext <;> simp [eq_comm]

end Described

theorem toTy_induction (ordered : Prop) {P : Ty → Prop} {σ : List (String × Ty)}
    (hσ : ∀ x t, Assoc.get? σ x = some t → P t)
    (hfunc : ∀ arg ret, P arg → P ret → P (.func arg ret))
    (hrecord : ∀ fields ext, P (.record fields ext) ↔
      (ordered → Assoc.Sorted fields) ∧ (∀ f ∈ fields, P f.2) ∧ ∀ v, ext = some v → P (.var v))
    {e : Signature} (he : ordered → e.Ordered)
    (happ : ∀ c ∈ e.constructors, ∀ args, (∀ a ∈ args, P a) → P (.app c args)) {t : Ty}
    (ht : e.toTy σ = .ok t) : P t := by
  induction e generalizing t with
  | var x => exact hσ x t (toTy_var.mp ht)
  | con name args ih =>
    obtain ⟨ts, hts, rfl⟩ := toTy_con.mp ht
    refine happ name (by simp [constructors]) ts fun u hu => ?_
    obtain ⟨a, ha, hau⟩ := exists_of_forall₂_right hts hu
    refine ih a ha (fun ho => ?_) (fun c hc => happ c ?_) hau
    · cases he ho with | con h => exact h a ha
    · simp only [constructors, List.mem_cons, mem_constructorsList]
      exact .inr ⟨a, ha, hc⟩
  | func arg ret iha ihr =>
    obtain ⟨a, r, ha, hr, rfl⟩ := toTy_func.mp ht
    refine hfunc a r (iha (fun ho => ?_) (fun c hc => happ c (by simp [constructors, hc])) ha)
      (ihr (fun ho => ?_) (fun c hc => happ c (by simp [constructors, hc])) hr)
    · cases he ho with | func h _ => exact h
    · cases he ho with | func _ h => exact h
  | record fields ext ih =>
    obtain ⟨gs, hrel, ht⟩ := toTy_record.mp ht
    have hsorted : ordered → Assoc.Sorted gs := fun ho => by
      cases he ho with | record h _ => exact hrel.sorted_iff.mp h
    have hfields : ∀ g ∈ gs, P g.2 := by
      intro g hg
      obtain ⟨f, hf, _, hfg⟩ := hrel.exists_left hg
      refine ih f hf (fun ho => ?_) (fun c hc => happ c ?_) hfg
      · cases he ho with | record _ h => exact h f hf
      · simp only [constructors, mem_constructorsFields]
        exact ⟨f, hf, hc⟩
    cases ext with
    | none => cases ht; exact (hrecord gs none).mpr ⟨hsorted, hfields, by simp⟩
    | some x =>
      rcases extend_ok.mp ht with ⟨v, hv, rfl⟩ | ⟨more, rest, hm, rfl⟩
      · refine (hrecord gs _).mpr ⟨hsorted, hfields, ?_⟩
        rintro w ⟨⟩
        exact hσ x _ hv
      · obtain ⟨hsm, hfm, hext⟩ := (hrecord more rest).mp (hσ x _ hm)
        refine (hrecord _ rest).mpr ⟨fun ho => Assoc.sorted_union (hsm ho), fun f hf => ?_, hext⟩
        exact (Assoc.mem_of_mem_union hf).elim (hfields f) (hfm f)

theorem toTy_over {V : Var → Prop} {σ : List (String × Ty)}
    (hσ : ∀ x t, Assoc.get? σ x = some t → t.Over V) {e : Signature} (he : e.Ordered) {t : Ty}
    (ht : e.toTy σ = .ok t) : t.Over V :=
  toTy_induction True hσ (fun _ _ ha hr => Ty.over_func.mpr ⟨ha, hr⟩)
    (fun _ _ => by simp [Ty.over_record, Ty.over_var]) (fun _ => he)
    (fun _ _ _ h => Ty.over_app.mpr h) ht

theorem mem_vars_toTy {σ : List (String × Ty)} {v : Var} {e : Signature} {t : Ty}
    (ht : e.toTy σ = .ok t) : v ∈ t.vars → ∃ x u, Assoc.get? σ x = some u ∧ v ∈ u.vars := by
  refine toTy_induction False
    (P := fun t => v ∈ t.vars → ∃ x u, Assoc.get? σ x = some u ∧ v ∈ u.vars)
    (fun x u hu hv => ⟨x, u, hu, hv⟩) ?_ ?_ False.elim ?_ ht
  · exact fun _ _ ha hr hv => (Ty.mem_vars_func.mp hv).elim ha hr
  · intro fields ext
    simp only [Ty.mem_vars_record, false_implies, true_and, or_imp, Ty.mem_vars_var]
    refine and_congr ⟨fun h f hf hv => h ⟨f, hf, hv⟩, fun h hf => hf.elim fun f hf => h f hf.1 hf.2⟩ ?_
    exact ⟨fun h w hw hv => h (hv ▸ hw), fun h hv => h v hv rfl⟩
  · intro c _ args h hv
    obtain ⟨a, ha, hv⟩ := Ty.mem_vars_app.mp hv
    exact h a ha hv

end Signature

namespace AliasTable

variable {table : AliasTable}

theorem expand_ok {name : String} {args : List Ty} {t : Ty} :
    table.expand name args = some (.ok t) ↔ ∃ entry, Assoc.get? table name = some entry ∧
      entry.params.length = args.length ∧
      entry.body.toTy (entry.params.zip args).reverse = .ok t := by
  rw [expand]
  cases Assoc.get? table name with
  | none => simp
  | some entry => by_cases h : entry.params.length = args.length <;> simp [h]

theorem mem_args_of_get? {params : List String} {args : List Ty} {x : String} {t : Ty}
    (h : Assoc.get? (params.zip args).reverse x = some t) : t ∈ args := by
  have := Assoc.mem_of_get? h
  rw [List.mem_reverse] at this
  exact (List.of_mem_zip this).2

/-- The bodies of the aliases are ordered, and the names that they mention can be followed only
finitely often. -/
structure Usable (table : AliasTable) : Prop where
  ordered : ∀ name entry, Assoc.get? table name = some entry → entry.body.Ordered
  grounded : WellFounded fun c name => c ∈ table.mentions name

theorem induction_of_grounded (hg : WellFounded fun c name => c ∈ table.mentions name)
    {P : Ty → Prop} (hfunc : ∀ arg ret, P arg → P ret → P (.func arg ret))
    (hrecord : ∀ fields ext, P (.record fields ext) ↔
      (∀ f ∈ fields, P f.2) ∧ ∀ v, ext = some v → P (.var v))
    (happ : ∀ name args, (∀ t, table.expand name args ≠ some (.ok t)) →
      (∀ a ∈ args, P a) → P (.app name args))
    (halias : ∀ name args t, table.expand name args = some (.ok t) → P t → P (.app name args))
    {t : Ty} (hvar : ∀ v ∈ t.vars, P (.var v)) : P t := by
  -- applications: by induction on the name, along the mentions of aliases
  have hall : ∀ name args, (∀ a ∈ args, P a) → P (.app name args) := by
    intro name
    induction name using hg.induction with
    | _ name ih =>
      intro args hargs
      by_cases hex : ∃ t, table.expand name args = some (.ok t)
      · obtain ⟨t, ht⟩ := hex
        refine halias name args t ht ?_
        obtain ⟨entry, hentry, _, hbody⟩ := expand_ok.mp ht
        refine Signature.toTy_induction False
          (fun x u hu => hargs u (mem_args_of_get? hu)) hfunc
          (fun fields ext => by simp [hrecord fields ext]) False.elim
          (fun c hc args hargs => ih c ?_ args hargs) hbody
        simp only [mentions, hentry]
        exact hc
      · exact happ name args (fun t ht => hex ⟨t, ht⟩) hargs
  induction t with
  | var v => exact hvar v (by simp)
  | func arg ret iha ihr =>
    exact hfunc arg ret (iha fun v hv => hvar v (by simp [hv])) (ihr fun v hv => hvar v (by simp [hv]))
  | app name args ih =>
    exact hall name args fun a ha => ih a ha fun v hv => hvar v (Ty.mem_vars_app.mpr ⟨a, ha, hv⟩)
  | record fields ext ih =>
    refine (hrecord fields ext).mpr ⟨fun f hf => ih f hf fun v hv => hvar v ?_, fun v hv => hvar v ?_⟩
    · exact Ty.mem_vars_record.mpr (.inl ⟨f, hf, hv⟩)
    · exact Ty.mem_vars_record.mpr (.inr hv)

theorem Usable.expand_over (h : table.Usable) {V : Var → Prop} {name : String} {args : List Ty}
    {t : Ty} (ht : table.expand name args = some (.ok t)) (hargs : ∀ a ∈ args, a.Over V) :
    t.Over V := by
  obtain ⟨entry, hentry, _, hbody⟩ := expand_ok.mp ht
  exact Signature.toTy_over (fun x u hu => hargs u (mem_args_of_get? hu))
    (h.ordered name entry hentry) hbody

theorem head_succ {n : Nat} {t : Ty} {hd : Head} (h : table.head n t = some hd) :
    table.head (n + 1) t = some hd := by
  induction n generalizing t with
  | zero => simp [head] at h
  | succ n ih =>
    cases t with
    | app name args =>
      rw [head] at h
      rw [head]
      cases hex : table.expand name args with
      | none => simpa only [hex] using h
      | some r =>
        cases r with
        | ok t => simp only [hex] at h ⊢; exact ih h
        | error e => simpa only [hex] using h
    | _ => exact h

theorem head_mono {n n' : Nat} (hn : n ≤ n') {t : Ty} {hd : Head} (h : table.head n t = some hd) :
    table.head n' t = some hd := by
  induction hn with
  | refl => exact h
  | step _ ih => exact head_succ ih

theorem head_induction {P : Ty → Prop} {n : Nat} {t : Ty} {hd : Head} (h : table.head n t = some hd)
    (settled : ∀ u, hd = .settled u →
      (∀ name args, u = .app name args → table.expand name args = none) → P u)
    (stuck : ∀ u, hd = .stuck u → P u)
    (expanded : ∀ name args u, table.expand name args = some (.ok u) → P u →
      P (.app name args)) : P t := by
  induction n generalizing t with
  | zero => simp [head] at h
  | succ n ih =>
    cases t with
    | app name args =>
      rw [head] at h
      split at h <;> rename_i hex
      · cases h
        exact settled _ rfl fun _ _ he => by cases he; exact hex
      · exact expanded _ _ _ hex (ih h)
      · cases h
        exact stuck _ rfl
    | _ => cases h; exact settled _ rfl fun _ _ he => by cases he

theorem Usable.head_settled (h : table.Usable) {V : Var → Prop} {n : Nat} {t u : Ty}
    (ht : t.Over V) (hu : table.head n t = some (.settled u)) :
    u.Over V ∧ ∀ name args, u = .app name args → table.expand name args = none := by
  refine head_induction (P := fun t => t.Over V → _) hu (fun _ heq hex ht => ?_)
    (fun _ heq => by cases heq) (fun _ _ _ hex ih ht => ?_) ht
  · cases heq
    exact ⟨ht, hex⟩
  · exact ih (h.expand_over hex (Ty.over_app.mp ht))

theorem mem_keys_of_mentions {name c : String} (h : c ∈ table.mentions name) :
    name ∈ Assoc.keys table := by
  by_contra hn
  rw [mentions, Assoc.get?_eq_none_iff.mpr hn] at h
  cases h

def unlisted (table : AliasTable) (seen : List String) : Nat :=
  ((Assoc.keys table).toFinset.filter (· ∉ seen)).card

theorem unlisted_append_lt {seen found : List String} {name : String}
    (hk : name ∈ Assoc.keys table) (hf : name ∈ found) (hs : name ∉ seen) :
    table.unlisted (seen ++ found) < table.unlisted seen := by
  refine Finset.card_lt_card ((Finset.ssubset_iff_of_subset ?_).mpr ⟨name, ?_, ?_⟩)
  · intro x hx
    rw [Finset.mem_filter] at hx ⊢
    exact ⟨hx.1, fun hmem => hx.2 (by simp [hmem])⟩
  · exact Finset.mem_filter.mpr ⟨by simpa using hk, hs⟩
  · simp [hf]

/-- There are rounds left for all aliases that the search can still come upon. Only aliases mention
anything, so each round but the last finds a new one. -/
def Rounds (table : AliasTable) (fuel : Nat) (pending seen : List String) : Prop :=
  (∀ p ∈ pending, p ∉ Assoc.keys table) ∨ table.unlisted seen < fuel

theorem mem_found {pending seen : List String} {c : String} :
    c ∈ ((pending.flatMap (mentions table)).eraseDups.filter fun name => name ∉ seen) ↔
      (∃ p ∈ pending, c ∈ table.mentions p) ∧ c ∉ seen := by
  simp [List.mem_eraseDups]

theorem Rounds.next {fuel : Nat} {pending seen found : List String}
    (h : table.Rounds (fuel + 1) pending seen)
    (hfound : ∀ c, c ∈ found ↔ (∃ p ∈ pending, c ∈ table.mentions p) ∧ c ∉ seen) :
    table.Rounds fuel found (seen ++ found) := by
  by_cases hal : ∃ p ∈ found, p ∈ Assoc.keys table
  · obtain ⟨p, hp, hpk⟩ := hal
    obtain ⟨⟨q, hq, hpq⟩, hps⟩ := (hfound p).mp hp
    rcases h with h | h
    · exact absurd (mem_keys_of_mentions hpq) (h q hq)
    · have := unlisted_append_lt hpk hp hps
      exact .inr (by omega)
  · exact .inl fun p hp hk => hal ⟨p, hp, hk⟩

theorem Rounds.start (table : AliasTable) {fuel : Nat} (h : table.length < fuel) (name : String) :
    table.Rounds fuel [name] [] := by
  have h1 : table.unlisted [] ≤ (Assoc.keys table).toFinset.card :=
    Finset.card_le_card (Finset.filter_subset _ _)
  have h2 := List.toFinset_card_le (Assoc.keys table)
  have h3 : (Assoc.keys table).length = table.length := by simp [Assoc.keys]
  exact .inr (by omega)

theorem Rounds.not_mentions {pending seen : List String} (h : table.Rounds 0 pending seen)
    {p c : String} (hp : p ∈ pending) : c ∉ table.mentions p := fun hc =>
  h.elim (fun h => h p hp (mem_keys_of_mentions hc)) (Nat.not_lt_zero _)

theorem explore_closed {fuel : Nat} {pending seen : List String}
    (hclosed : ∀ x ∈ seen, x ∈ pending ∨ ∀ c ∈ table.mentions x, c ∈ seen)
    (hrounds : table.Rounds fuel pending seen) :
    (∀ x ∈ seen, x ∈ explore table fuel pending seen) ∧
      (∀ p ∈ pending, ∀ c ∈ table.mentions p, c ∈ explore table fuel pending seen) ∧
      ∀ x ∈ explore table fuel pending seen, ∀ c ∈ table.mentions x,
        c ∈ explore table fuel pending seen := by
  induction fuel generalizing pending seen with
  | zero =>
    refine ⟨fun x hx => hx, fun p hp c hc => absurd hc (hrounds.not_mentions hp), fun x hx c hc => ?_⟩
    rcases hclosed x hx with h | h
    · exact absurd hc (hrounds.not_mentions h)
    · exact h c hc
  | succ fuel ih =>
    have hmem := @mem_found table pending seen
    rw [explore]
    split
    · rename_i hnil
      have hin : ∀ p ∈ pending, ∀ c ∈ table.mentions p, c ∈ seen := by
        intro p hp c hc
        by_contra hn
        have := hmem.mpr ⟨⟨p, hp, hc⟩, hn⟩
        rw [hnil] at this
        cases this
      refine ⟨fun x hx => hx, hin, fun x hx c hc => ?_⟩
      rcases hclosed x hx with h | h
      · exact hin x h c hc
      · exact h c hc
    · generalize hfd : ((pending.flatMap (mentions table)).eraseDups.filter fun name =>
        name ∉ seen) = found at *
      have hin : ∀ p ∈ pending, ∀ c ∈ table.mentions p, c ∈ seen ++ found := by
        intro p hp c hc
        by_cases hs : c ∈ seen
        · simp [hs]
        · simp [hmem.mpr ⟨⟨p, hp, hc⟩, hs⟩]
      obtain ⟨hkeep, _, hcl⟩ := @ih found (seen ++ found) (fun x hx => by
        rcases List.mem_append.mp hx with hx | hx
        · rcases hclosed x hx with h | h
          · exact .inr (hin x h)
          · exact .inr fun c hc => by simp [h c hc]
        · exact .inl hx) (hrounds.next fun _ => hmem)
      exact ⟨fun x hx => hkeep x (by simp [hx]), fun p hp c hc => hkeep c (hin p hp c hc), hcl⟩

/-- The search finds every name that an alias leads to. -/
theorem mem_reached {name c : String} (h : TransGen (fun a b => b ∈ table.mentions a) name c) :
    c ∈ reached table name := by
  obtain ⟨_, hstart, hcl⟩ := explore_closed (by simp)
    (Rounds.start table (Nat.lt_succ_self _) name)
  induction h with
  | single h => exact hstart name (by simp) _ h
  | tail _ h ih => exact hcl _ ih _ h

theorem grounded_of_findCycle (h : table.findCycle = none) :
    WellFounded fun c name => c ∈ table.mentions name := by
  refine wellFounded_of_acyclic (List.finite_toSet (Assoc.keys table))
    (fun name c hc => mem_keys_of_mentions hc) fun name hcycle => ?_
  have hname : name ∈ Assoc.keys table := by
    obtain ⟨c, hc, _⟩ := TransGen.head'_iff.mp hcycle
    exact mem_keys_of_mentions hc
  rw [findCycle, List.find?_eq_none] at h
  exact h name hname (by simpa using mem_reached hcycle)

end AliasTable

namespace Environment

def Ordered (env : Environment) : Prop := ∀ e ∈ env.aliases, e.2.body.Ordered

theorem addAliases_forall {P : String → Alias → Prop} {entries : List (String × Alias)}
    {table table' : AliasTable} (h : addAliases entries table = .ok table')
    (he : ∀ e ∈ entries, firstUnbound e.2.params e.2.body.freeVars = none → P e.1 e.2)
    (ht : ∀ name entry, Assoc.get? table name = some entry → P name entry) :
    ∀ name entry, Assoc.get? table' name = some entry → P name entry := by
  induction entries generalizing table with
  | nil => cases h; exact ht
  | cons e entries ih =>
    obtain ⟨name, entry⟩ := e
    rw [addAliases, AliasTable.add] at h
    split at h
    · cases h
    · rename_i t hadd
      split at hadd
      · cases hadd
      · rename_i hscope
        cases hadd
        refine ih h (fun e hmem => he e (by simp [hmem])) fun name' entry' hget => ?_
        rw [Assoc.get?_insert] at hget
        split at hget
        · rename_i heq
          cases hget
          exact heq ▸ he (name, entry) (by simp) hscope
        · exact ht name' entry' hget

theorem aliasTable_spec {P : String → Alias → Prop} {env : Environment} {table : AliasTable}
    (h : env.aliasTable = .ok table)
    (he : ∀ e ∈ env.aliases, firstUnbound e.2.params e.2.body.freeVars = none → P e.1 e.2) :
    (∀ name entry, Assoc.get? table name = some entry → P name entry) ∧ table.findCycle = none := by
  rw [aliasTable] at h
  split at h
  · cases h
  · rename_i t hadd
    split at h
    · cases h
    · rename_i hcycle
      cases h
      exact ⟨addAliases_forall hadd he (by simp [Assoc.get?]), hcycle⟩

/-- Every alias table that an environment accepts is usable. -/
theorem aliasTable_usable {env : Environment} {table : AliasTable} (ho : env.Ordered)
    (h : env.aliasTable = .ok table) : table.Usable := by
  obtain ⟨hordered, hcycle⟩ := aliasTable_spec (P := fun _ entry => entry.body.Ordered) h
    fun e he _ => ho e he
  exact ⟨hordered, AliasTable.grounded_of_findCycle hcycle⟩

end Environment
end TypeSolver
