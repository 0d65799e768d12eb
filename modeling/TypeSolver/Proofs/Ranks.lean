import TypeSolver.Proofs.Instances
import TypeSolver.Proofs.MostGeneral

/-!
# TypeSolver.Proofs.Ranks

Ranks of unbound classes in first-order stores. What a class stands for takes part in its rank, so
whatever an unbound class comes to lead to has at most the rank that it had (`Sinks`), and has no
other rank than one of these (`Stems`). For the other classes this follows, as an unbound class that
they lead to later is one that an unbound class leads to which they led to before
(`Refines.exists_source`).

The argument goes through meanings: in the reading of a first-order store, the meaning of a
variable mentions exactly the unbound classes that the variable leads to.
-/

namespace TypeSolver

inductive Meaning.Mentions (r : Var) : Meaning → Prop where
  | var : Mentions r (.var r)
  | arg {a b : Meaning} : Mentions r a → Mentions r (.func a b)
  | ret {a b : Meaning} : Mentions r b → Mentions r (.func a b)
  | app {name : String} {args : List Meaning} {a : Meaning} : a ∈ args → Mentions r a →
      Mentions r (.app name args)
  | field {fields : List (String × Meaning)} {ext : Option Var} {f : String × Meaning} :
      f ∈ fields → Mentions r f.2 → Mentions r (.record fields ext)
  | ext {fields : List (String × Meaning)} : Mentions r (.record fields (some r))

namespace Meaning

variable {r : Var} {m : Meaning}

theorem mentions_var {x : Var} : (Meaning.var x).Mentions r ↔ x = r :=
  ⟨fun h => by cases h; rfl, fun h => h ▸ .var⟩

theorem mentions_func {a b : Meaning} :
    (Meaning.func a b).Mentions r ↔ a.Mentions r ∨ b.Mentions r :=
  ⟨fun h => by cases h with | arg h => exact .inl h | ret h => exact .inr h,
    fun h => h.elim .arg .ret⟩

theorem mentions_app {name : String} {args : List Meaning} :
    (Meaning.app name args).Mentions r ↔ ∃ a ∈ args, a.Mentions r :=
  ⟨fun h => by cases h with | app ha h => exact ⟨_, ha, h⟩, fun ⟨_, ha, h⟩ => .app ha h⟩

theorem mentions_close {fields : List (String × Meaning)} (h : (close fields m).Mentions r) :
    (∃ f ∈ fields, f.2.Mentions r) ∨ m.Mentions r := by
  cases m with
  | var x =>
    cases h with
    | field hf h => exact .inl ⟨_, hf, h⟩
    | ext => exact .inr .var
  | record more rest =>
    cases h with
    | field hf h =>
      exact (Assoc.mem_of_mem_union hf).imp (fun hf => ⟨_, hf, h⟩) fun hf => .field hf h
    | ext => exact .inr .ext
  | _ =>
    cases h with
    | field hf h => exact .inl ⟨_, hf, h⟩

theorem exists_mentions_of_subst {σ : Valuation} (h : (m.subst σ).Mentions r) :
    ∃ x, m.Mentions x ∧ (σ x).Mentions r := by
  induction m with
  | var x => exact ⟨x, .var, by rwa [subst] at h⟩
  | func a b iha ihb =>
    rw [subst, mentions_func] at h
    rcases h with h | h
    · obtain ⟨x, hx, h⟩ := iha h
      exact ⟨x, .arg hx, h⟩
    · obtain ⟨x, hx, h⟩ := ihb h
      exact ⟨x, .ret hx, h⟩
  | app name args ih =>
    rw [subst, mentions_app] at h
    obtain ⟨_, hmem, h⟩ := h
    obtain ⟨a, ha, rfl⟩ := List.mem_map.mp hmem
    obtain ⟨x, hx, h⟩ := ih a ha h
    exact ⟨x, .app ha hx, h⟩
  | record fields ext ih =>
    have hfields : (∃ f ∈ fields.map fun f => (f.1, f.2.subst σ), f.2.Mentions r) →
        ∃ x, (Meaning.record fields ext).Mentions x ∧ (σ x).Mentions r := by
      rintro ⟨_, hmem, h⟩
      obtain ⟨f, hf, rfl⟩ := List.mem_map.mp hmem
      obtain ⟨x, hx, h⟩ := ih f hf h
      exact ⟨x, .field hf hx, h⟩
    rw [subst] at h
    cases ext with
    | none =>
      cases h with
      | field hf h => exact hfields ⟨_, hf, h⟩
    | some x => exact (mentions_close h).elim hfields fun h => ⟨x, .ext, h⟩
  | error => rw [subst] at h; cases h

end Meaning

variable {table : AliasTable} {θ : Valuation}

theorem Ty.FirstOrder.ne_var {t : Ty} (h : t.FirstOrder table) (hnv : t.isVar = false) {m : Meaning}
    (hm : Denotes table θ t m) (r : Var) : m ≠ .var r := by
  cases h with
  | var => cases hnv
  | func => obtain ⟨_, _, rfl, _⟩ := Denotes.func_iff.mp hm; simp
  | app hn hargs =>
    obtain ⟨_, rfl, _⟩ := (Denotes.app_iff (Ty.FirstOrder.app hn hargs).expand_ne).mp hm
    simp

/-- A first-order type mentions what its variables mean. -/
theorem Ty.FirstOrder.mentions_iff {t : Ty} (h : t.FirstOrder table) {m : Meaning}
    (hm : Denotes table θ t m) {r : Var} : m.Mentions r ↔ ∃ w ∈ t.vars, (θ w).Mentions r := by
  induction h generalizing m with
  | var => rw [Denotes.var_iff.mp hm]; simp
  | func _ _ iha ihb =>
    obtain ⟨a, b, rfl, ha, hb⟩ := Denotes.func_iff.mp hm
    simp only [Meaning.mentions_func, iha ha, ihb hb, Ty.mem_vars_func, or_and_right, exists_or]
  | @app name args hn hargs ih =>
    obtain ⟨ms, rfl, hms⟩ := (Denotes.app_iff (Ty.FirstOrder.app hn hargs).expand_ne).mp hm
    rw [Meaning.mentions_app]
    constructor
    · rintro ⟨m, hmem, hr⟩
      obtain ⟨a, ha, hm⟩ := exists_of_forall₂_right hms hmem
      obtain ⟨w, hw, hr⟩ := (ih a ha hm).mp hr
      exact ⟨w, Ty.mem_vars_app.mpr ⟨a, ha, hw⟩, hr⟩
    · rintro ⟨w, hw, hr⟩
      obtain ⟨a, ha, hw⟩ := Ty.mem_vars_app.mp hw
      obtain ⟨m, hmem, hm⟩ := exists_of_forall₂_left hms ha
      exact ⟨m, hmem, (ih a ha hm).mpr ⟨w, hw, hr⟩⟩

namespace Store

open Relation

variable {s s' s'' : Store} {θ : Valuation}

variable {r v : Var} {k : Rank}

theorem FirstOrder.mentions_iff (hs : s.FirstOrder) (hθ : s.Reading θ) (hv : v < s.size) :
    (θ v).Mentions r ↔ s.Reaches v r ∧ s.kind r = .free := by
  induction v using (hs.grounded.mentions hs.forest).induction with
  | _ v ih =>
    cases hk : s.kind v with
    | poisoned => exact absurd hk (hs.healthy v hv)
    | free =>
      have hkr : s.kind (s.root v) = .free := by rw [kind_root hs.forest, hk]
      rw [hθ.free v hk, Meaning.mentions_var]
      constructor
      · rintro rfl
        exact ⟨.refl, hkr⟩
      · exact fun ⟨hr, _⟩ => (hr.eq_root (by simp [hkr])).symm
    | bound t =>
      have hkr : s.kind (s.root v) = .bound t := by rw [kind_root hs.forest, hk]
      have hfits := hs.fits v t hk
      rw [(hs.terms v t hk).1.mentions_iff (hθ.bound v t hk)]
      constructor
      · rintro ⟨w, hw, hr⟩
        obtain ⟨hr, hfree⟩ := (ih w ⟨t, hk, hw⟩ (hfits.lt hw)).mp hr
        exact ⟨.head ((edge_root hs.forest).mpr ⟨t, hk, w, hw, rfl⟩) hr, hfree⟩
      · rintro ⟨hr, hfree⟩
        rcases hr.of_bound hkr with rfl | ⟨w, hw, hr⟩
        · rw [hkr] at hfree; cases hfree
        · exact ⟨w, hw, (ih w ⟨t, hk, hw⟩ (hfits.lt hw)).mpr ⟨hr, hfree⟩⟩

theorem rank?_eq_some : s.rank? v = some k ↔ ∃ hint, s.content v = .unbound k hint := by
  rw [rank?]
  cases s.content v <;> simp

theorem kind_eq_free_iff_rank? : s.kind v = .free ↔ ∃ k, s.rank? v = some k := by
  rw [kind_eq_free]
  simp only [rank?_eq_some]

theorem lt_of_rank? (h : s.rank? v = some k) : v < s.size :=
  lt_of_kind (by rw [kind_eq_free_iff_rank?.mpr ⟨k, h⟩]; simp)

theorem rank?_root (h : s.Forest) (v : Var) : s.rank? (s.root v) = s.rank? v := by
  rw [rank?, h.content_root, rank?]

/-- What an unbound class leads to afterwards has at most the rank that it had. -/
def Sinks (s s' : Store) : Prop :=
  ∀ v k r k', s.rank? v = some k → s'.Reaches v r → s'.rank? r = some k' → k' ≤ k

/-- An unbound class has afterwards a rank of one that leads to it now. -/
def Stems (s s' : Store) : Prop :=
  ∀ r k, s'.rank? r = some k → ∃ v, s.rank? v = some k ∧ s'.Reaches v (s'.root r)

/-- The store `s'` is first-order, has all variables of `s`, solves what `s` solves, and no class
has risen in rank. -/
structure Refines (s s' : Store) : Prop where
  firstOrder : s'.FirstOrder
  size_le : s.size ≤ s'.size
  aliases : s'.aliases = s.aliases
  solved : ∀ θ, s'.SolvedBy θ → s.SolvedBy θ
  sinks : Sinks s s'

/-- An unbound class leads to itself only. -/
theorem rank?_of_free (h : s.Forest) (hv : s.rank? v = some k) (hr : s.Reaches v r) :
    s.rank? r = some k := by
  have hfree : s.kind (s.root v) = .free := by
    rw [kind_root h]; exact kind_eq_free_iff_rank?.mpr ⟨k, hv⟩
  rw [hr.eq_root (by simp [hfree]), rank?_root h, hv]

theorem Sinks.of_free (h : s'.Forest)
    (hfree : ∀ v k, s.rank? v = some k → ∃ k', s'.rank? v = some k' ∧ k' ≤ k) : Sinks s s' := by
  intro v k r k' hv hr hk'
  obtain ⟨k1, hk1, hle⟩ := hfree v k hv
  rw [rank?_of_free h hk1 hr] at hk'
  cases hk'
  exact hle

theorem Sinks.refl (h : s.Forest) : Sinks s s := .of_free h fun _ k hk => ⟨k, hk, Nat.le_refl k⟩

theorem exists_source (hs : s.FirstOrder) (hs' : s'.FirstOrder) (hle : s.size ≤ s'.size)
    (hsolved : ∀ θ, s'.SolvedBy θ → s.SolvedBy θ) (hv : v < s.size) (hr : s'.Reaches v r)
    (hk : s'.kind r = .free) : ∃ r0, s.Reaches v r0 ∧ s.kind r0 = .free ∧ s'.Reaches r0 r := by
  obtain ⟨θ, hθ⟩ := hs.grounded.exists_reading hs.toFormed hs.usable
  obtain ⟨θ', hθ'⟩ := hs'.grounded.exists_reading hs'.toFormed hs'.usable
  have hmen := (hs'.mentions_iff hθ' (Nat.lt_of_lt_of_le hv hle)).mpr ⟨hr, hk⟩
  rw [(hsolved θ' hθ'.toSolvedBy).eq_subst hθ hs.grounded hs.toFormed hs.usable v hv] at hmen
  obtain ⟨r0, hmen0, hmen'⟩ := Meaning.exists_mentions_of_subst hmen
  obtain ⟨hr0, hk0⟩ := (hs.mentions_iff hθ hv).mp hmen0
  have hlt := Nat.lt_of_lt_of_le (hr0.lt hs.toFormed hv) hle
  exact ⟨r0, hr0, hk0, ((hs'.mentions_iff hθ' hlt).mp hmen').1⟩

theorem reaches_of_source (hs : s.FirstOrder) (hs' : s'.FirstOrder) (hle : s.size ≤ s'.size)
    (hsolved : ∀ θ, s'.SolvedBy θ → s.SolvedBy θ) {y : Var} (hv : v < s.size) (hy : y < s.size)
    (hvy : s.Reaches v (s.root y)) (hr : s'.Reaches y r) (hk : s'.kind r = .free) :
    s'.Reaches v r := by
  obtain ⟨θ, hθ⟩ := hs'.grounded.exists_reading hs'.toFormed hs'.usable
  have hθs := hsolved θ hθ.toSolvedBy
  -- along the edges of `s`, from the last class back to the first
  have hpath : ∀ x, ReflTransGen s.Edge x (s.root y) → (θ x).Mentions r := fun x hx => by
    induction hx using ReflTransGen.head_induction_on with
    | refl =>
      rw [hθs.root]
      exact (hs'.mentions_iff hθ (Nat.lt_of_lt_of_le hy hle)).mpr ⟨hr, hk⟩
    | head he _ ih =>
      obtain ⟨t, ht, w, hw, rfl⟩ := he
      rw [hθs.root] at ih
      exact ((hs.terms _ t ht).1.mentions_iff (hθs.bound _ t ht)).mpr ⟨w, hw, ih⟩
  have hmen := hpath (s.root v) hvy
  rw [hθs.root] at hmen
  exact ((hs'.mentions_iff hθ (Nat.lt_of_lt_of_le hv hle)).mp hmen).1

namespace Refines

theorem refl (hs : s.FirstOrder) : Refines s s :=
  ⟨hs, Nat.le_refl _, rfl, fun _ h => h, .refl hs.forest⟩

theorem exists_source (h : Refines s s') (hs : s.FirstOrder) (hv : v < s.size) (hr : s'.Reaches v r)
    (hk : s'.kind r = .free) : ∃ r0, s.Reaches v r0 ∧ s.kind r0 = .free ∧ s'.Reaches r0 r :=
  Store.exists_source hs h.firstOrder h.size_le h.solved hv hr hk

theorem trans (h : Refines s s') (h' : Refines s' s'') : Refines s s'' := by
  refine ⟨h'.firstOrder, h.size_le.trans h'.size_le, h'.aliases.trans h.aliases,
    fun θ hθ => h.solved θ (h'.solved θ hθ), fun v k r k'' hv hr hk'' => ?_⟩
  have hlt := Nat.lt_of_lt_of_le (lt_of_rank? hv) h.size_le
  obtain ⟨r1, hr1, hk1, hr⟩ := h'.exists_source h.firstOrder hlt hr
    (kind_eq_free_iff_rank?.mpr ⟨k'', hk''⟩)
  obtain ⟨k', hk'⟩ := kind_eq_free_iff_rank?.mp hk1
  exact (h'.sinks r1 k' r k'' hk' hr hk'').trans (h.sinks v k r1 k' hv hr1 hk')

end Refines

/-- The store `s'` refines `s`, and no class has sunk further than to a rank that leads to it. -/
structure Distills (s s' : Store) : Prop extends Refines s s' where
  stems : Stems s s'

theorem refines_of_extends {qs : List Var} {rank : Rank} {c : Copying}
    (hc : Copying.Extends s qs rank c) (hs : s.FirstOrder) : Refines s c.store := by
  have hhealthy : c.store.Healthy := fun v hv => by
    rcases Nat.lt_or_ge v s.size with hlt | hge
    · rw [hc.kind_old hlt]; exact hs.healthy v hlt
    · rw [hc.kind_new hge hv]; simp
  have husable : c.store.aliases.Usable := by rw [hc.aliases]; exact hs.usable
  have hterms : ∀ v t, c.store.kind v = .bound t →
      t.FirstOrder c.store.aliases ∧ t.isVar = false := fun v t hk => by
    rw [hc.aliases]; exact hs.terms v t (hc.bound_iff.mp hk)
  refine ⟨⟨⟨⟨hc.formed hs.toFormed, husable⟩, hc.grounded hs.grounded, hhealthy⟩, hterms⟩,
    hc.size_le, hc.aliases, fun θ hθ => hc.solvedBy hθ, .of_free hc.forest fun v k hk => ?_⟩
  refine ⟨k, ?_, Nat.le_refl k⟩
  rw [rank?, hc.content v (lt_of_rank? hk)]
  exact hk

theorem rank?_lowerRanks (hs : s.Formed) {t : Ty} (ht : t.Fits s.size) (rank : Rank)
    (hv : s.rank? v = some k) : ∃ k', (s.lowerRanks (s.reach t) rank).rank? v = some k' ∧ k' ≤ k ∧
      (s.root v ∈ s.reach t → k' ≤ rank) := by
  obtain ⟨hint, hc⟩ := rank?_eq_some.mp hv
  have hcon := lowerRanks_content hs.forest rank (reach_lt hs ht) v
  rw [hc] at hcon
  split at hcon
  · exact ⟨min k rank, rank?_eq_some.mpr ⟨hint, hcon⟩, Nat.min_le_left .., fun _ => Nat.min_le_right ..⟩
  · rename_i hne
    refine ⟨k, rank?_eq_some.mpr ⟨hint, hcon⟩, Nat.le_refl k, fun hmem => (hne ?_).elim⟩
    exact ⟨s.root v, hmem, hs.forest.root_root v⟩

end Store
end TypeSolver
