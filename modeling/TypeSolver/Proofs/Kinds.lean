import TypeSolver.Proofs.Generated

/-!
# TypeSolver.Proofs.Kinds

At which place a type may stand: where a type is asked for, or behind the fields of a record.
`Kinds` assigns a place to each argument of each type constructor and alias, and a type is `Kinded`
when everything in it stands where it may. Only variables and records stand behind the fields of
records.

Where places are not told apart, every type is kinded whose variables are, so that one development
serves for both.
-/

namespace TypeSolver

structure Kinds where
  /-- Whether places are told apart. -/
  strict : Prop
  /-- The place of the argument `i` of `n`. -/
  param : (name : String) → (n i : Nat) → Place

namespace Kinds

variable {K : Kinds} {p q r : Place}

/-- What may stand at the one place may stand at the other. -/
def Same (K : Kinds) (p q : Place) : Prop := K.strict → p = q

@[simp] theorem Same.refl : K.Same p p := fun _ => rfl

theorem Same.symm (h : K.Same p q) : K.Same q p := fun hs => (h hs).symm

theorem Same.trans (h : K.Same p q) (h' : K.Same q r) : K.Same p r := fun hs => (h hs).trans (h' hs)

/-- A relation between variables and places that does not tell apart more than `K` does. -/
def Respects (K : Kinds) (M : Var → Place → Prop) : Prop :=
  ∀ v p q, M v p → K.Same p q → M v q

/-- The variable is among the first `n` and may stand at `p`. -/
def Standing (K : Kinds) (place : Var → Place) (n : Nat) (v : Var) (p : Place) : Prop :=
  v < n ∧ K.Same (place v) p

theorem respects_standing {place : Var → Place} {n : Nat} : K.Respects (K.Standing place n) :=
  fun _ _ _ ⟨hlt, h⟩ h' => ⟨hlt, h.trans h'⟩

end Kinds

/-- The signature may stand at the place `p`, if its variables may stand where `M` says. -/
inductive Signature.Kinded (K : Kinds) (M : String → Place → Prop) : Place → Signature → Prop where
  | var {p : Place} {x : String} : M x p → Kinded K M p (.var x)
  | con {p : Place} {name : String} {args : List Signature} : K.Same p .type →
      (∀ i a, args[i]? = some a → Kinded K M (K.param name args.length i) a) →
      Kinded K M p (.con name args)
  | func {p : Place} {arg ret : Signature} : K.Same p .type → Kinded K M .type arg →
      Kinded K M .type ret → Kinded K M p (.func arg ret)
  | record {p : Place} {fields : List (String × Signature)} {ext : Option String} :
      (∀ f ∈ fields, Kinded K M .type f.2) → (∀ x, ext = some x → M x .row) →
      Kinded K M p (.record fields ext)

/-- The type may stand at the place `p`, if its variables may stand where `M` says. -/
inductive Ty.Kinded (K : Kinds) (M : Var → Place → Prop) : Place → Ty → Prop where
  | var {p : Place} {v : Var} : M v p → Kinded K M p (.var v)
  | func {p : Place} {arg ret : Ty} : K.Same p .type → Kinded K M .type arg →
      Kinded K M .type ret → Kinded K M p (.func arg ret)
  | app {p : Place} {name : String} {args : List Ty} : K.Same p .type →
      (∀ i a, args[i]? = some a → Kinded K M (K.param name args.length i) a) →
      Kinded K M p (.app name args)
  | record {p : Place} {fields : List (String × Ty)} {ext : Option Var} :
      (∀ f ∈ fields, Kinded K M .type f.2) → (∀ v, ext = some v → M v .row) →
      Kinded K M p (.record fields ext)

namespace Ty

variable {K : Kinds} {M M' : Var → Place → Prop} {p q : Place} {t : Ty}

@[simp] theorem kinded_var {v : Var} : (Ty.var v).Kinded K M p ↔ M v p :=
  ⟨fun h => by cases h with | var h => exact h, .var⟩

@[simp] theorem kinded_func {arg ret : Ty} : (Ty.func arg ret).Kinded K M p ↔
    K.Same p .type ∧ arg.Kinded K M .type ∧ ret.Kinded K M .type :=
  ⟨fun h => by cases h with | func hp ha hr => exact ⟨hp, ha, hr⟩, fun ⟨hp, ha, hr⟩ => .func hp ha hr⟩

@[simp] theorem kinded_app {name : String} {args : List Ty} : (Ty.app name args).Kinded K M p ↔
    K.Same p .type ∧
      ∀ (i : Nat) (a : Ty), args[i]? = some a → a.Kinded K M (K.param name args.length i) :=
  ⟨fun h => by cases h with | app hp ha => exact ⟨hp, ha⟩, fun ⟨hp, ha⟩ => .app hp ha⟩

variable {fields : List (String × Ty)}

@[simp] theorem kinded_record {ext : Option Var} : (Ty.record fields ext).Kinded K M p ↔
      (∀ f ∈ fields, f.2.Kinded K M .type) ∧ ∀ v, ext = some v → M v .row :=
  ⟨fun h => by cases h with | record hf he => exact ⟨hf, he⟩, fun ⟨hf, he⟩ => .record hf he⟩

namespace Kinded

theorem mono (h : t.Kinded K M p) (hM : ∀ v ∈ t.vars, ∀ q, M v q → M' v q) : t.Kinded K M' p := by
  induction h with
  | var h => exact .var (hM _ (mem_vars_var.mpr rfl) _ h)
  | func hp _ _ iha ihr =>
    exact .func hp (iha fun v hv => hM v (mem_vars_func.mpr (.inl hv)))
      (ihr fun v hv => hM v (mem_vars_func.mpr (.inr hv)))
  | app hp _ ih =>
    exact .app hp fun i a ha => ih i a ha fun v hv =>
      hM v (mem_vars_app.mpr ⟨a, List.mem_of_getElem? ha, hv⟩)
  | record _ he ih =>
    refine .record (fun f hf => ih f hf fun v hv => hM v (mem_vars_record.mpr (.inl ⟨f, hf, hv⟩)))
      fun v hv => hM v (mem_vars_record.mpr (.inr hv)) _ (he v hv)

/-- Every variable of a type stands somewhere in it. -/
theorem exists_place (h : t.Kinded K M p) {v : Var} (hv : v ∈ t.vars) : ∃ q, M v q := by
  induction h with
  | var h => rw [mem_vars_var.mp hv]; exact ⟨_, h⟩
  | func _ _ _ iha ihr => exact (mem_vars_func.mp hv).elim iha ihr
  | app _ _ ih =>
    obtain ⟨a, ha, hv⟩ := mem_vars_app.mp hv
    obtain ⟨i, hi⟩ := List.getElem?_of_mem ha
    exact ih i a hi hv
  | record _ he ih =>
    rcases mem_vars_record.mp hv with ⟨f, hf, hv⟩ | hv
    · exact ih f hf hv
    · exact ⟨_, he v hv⟩

theorem of_same (h : t.Kinded K M p) (hM : K.Respects M) (hpq : K.Same p q) : t.Kinded K M q := by
  cases h with
  | var h => exact .var (hM _ _ _ h hpq)
  | func hp ha hr => exact .func (hpq.symm.trans hp) ha hr
  | app hp ha => exact .app (hpq.symm.trans hp) ha
  | record hf he => exact .record hf he

theorem exists_record (h : t.Kinded K M .row) (hK : K.strict) (ht : t.isVar = false) :
    ∃ fields ext, t = .record fields ext := by
  cases h with
  | var => cases ht
  | func hp => cases hp hK
  | app hp => cases hp hK
  | record => exact ⟨_, _, rfl⟩

end Kinded

theorem kinded_union {more : List (String × Ty)} {rest : Option Var}
    (hf : ∀ f ∈ fields, f.2.Kinded K M .type) (h : (Ty.record more rest).Kinded K M q) :
    (Ty.record (Assoc.union fields more) rest).Kinded K M p := by
  obtain ⟨hm, hr⟩ := kinded_record.mp h
  exact .record (fun f hmem => (Assoc.mem_of_mem_union hmem).elim (hf f) (hm f)) hr

end Ty

variable {M : Var → Place → Prop}

theorem Signature.Kinded.toTy {K : Kinds} {N : String → Place → Prop} {σ : List (String × Ty)}
    {sig : Signature} {p : Place} (h : sig.Kinded K N p)
    (hσ : ∀ x u q, Assoc.get? σ x = some u → N x q → u.Kinded K M q) {t : Ty}
    (ht : sig.toTy σ = .ok t) : t.Kinded K M p := by
  induction h generalizing t with
  | @var p x h => exact hσ x _ _ (toTy_var.mp ht) h
  | @con p name args hp _ ih =>
    obtain ⟨ts, hall, rfl⟩ := toTy_con.mp ht
    refine .app hp fun i a ha => ?_
    obtain ⟨e, he, hea⟩ := exists_getElem?_of_forall₂ hall ha
    rw [← hall.length_eq]
    exact ih i e he hea
  | @func p arg ret hp _ _ iha ihr =>
    obtain ⟨a, r, ha, hr, rfl⟩ := toTy_func.mp ht
    exact .func hp (iha ha) (ihr hr)
  | @record p fields ext _ he ih =>
    obtain ⟨gs, hgs, ht⟩ := toTy_record.mp ht
    have hfields : ∀ g ∈ gs, g.2.Kinded K M .type := by
      intro g hg
      obtain ⟨f, hf, _, hfg⟩ := hgs.exists_left hg
      exact ih f hf hfg
    cases ext with
    | none =>
      cases ht
      exact .record hfields (by rintro _ ⟨⟩)
    | some x =>
      rcases extend_ok.mp ht with ⟨w, hw, rfl⟩ | ⟨more, rest, hm, rfl⟩
      · refine .record hfields ?_
        rintro _ ⟨⟩
        exact Ty.kinded_var.mp (hσ x _ _ hw (he x rfl))
      · exact Ty.kinded_union hfields (hσ x _ _ hm (he x rfl))

/-- The body of the alias is a type, if its arguments stand at their places. -/
def Alias.Kinded (K : Kinds) (name : String) (entry : Alias) : Prop :=
  entry.body.Kinded K
    (fun x p => ∀ i, entry.params[i]? = some x → K.Same (K.param name entry.params.length i) p) .type

namespace AliasTable

def Kinded (K : Kinds) (table : AliasTable) : Prop :=
  ∀ name entry, Assoc.get? table name = some entry → entry.Kinded K name

variable {K : Kinds} {M : Var → Place → Prop} {table : AliasTable} {p : Place}

theorem Kinded.expand (htable : table.Kinded K) (hM : K.Respects M) {name : String}
    {args : List Ty} (h : (Ty.app name args).Kinded K M p) {u : Ty}
    (hu : table.expand name args = some (.ok u)) : u.Kinded K M .type := by
  obtain ⟨entry, hentry, hlen, hbody⟩ := expand_ok.mp hu
  refine (htable name entry hentry).toTy (fun x a q ha hx => ?_) hbody
  obtain ⟨i, hi⟩ := List.getElem?_of_mem (List.mem_reverse.mp (Assoc.mem_of_get? ha))
  obtain ⟨hxi, hai⟩ := List.getElem?_zip_eq_some.mp hi
  refine ((Ty.kinded_app.mp h).2 i a hai).of_same hM ?_
  rw [← hlen]
  exact hx i hxi

theorem Kinded.head (htable : table.Kinded K) (hM : K.Respects M) {n : Nat} {t u : Ty}
    (h : t.Kinded K M p) (hu : table.head n t = some (.settled u)) : u.Kinded K M p := by
  refine head_induction (P := fun t => t.Kinded K M p → u.Kinded K M p) hu (fun _ heq _ h => ?_)
    (fun _ heq => by cases heq) (fun _ _ _ hex ih h => ?_) h
  · cases heq
    exact h
  · have hp : K.Same .type p := ((Ty.kinded_app.mp h).1).symm
    exact ih ((htable.expand hM h hex).of_same hM hp)

end AliasTable

/-- Aliases stand for types, and the variables of each signature have places at which the signature
is a type. -/
structure Environment.Kinded (K : Kinds) (env : Environment) : Prop where
  aliases : ∀ e ∈ env.aliases, e.2.Kinded K e.1
  signatures : ∀ sig, env.Offers sig →
    ∃ place : String → Place, sig.Kinded K (fun x p => K.Same (place x) p) .type
  list : K.Same .type (K.param "List" 1 0)

namespace Environment

variable {K : Kinds} {env : Environment}

theorem Kinded.admits (h : env.Kinded K) :
    Admits env True fun place t => t.Kinded K (fun v p => K.Same (place v) p) .type where
  var hv := .var (by rw [hv]; exact .refl)
  func := by simp
  literal l := by cases l <;> exact .app .refl nofun
  list ht := .app .refl fun i a ha => by
    obtain ⟨rfl, rfl⟩ : i = 0 ∧ _ = a := by simpa [List.getElem?_cons] using ha
    exact ht.of_same (fun _ _ _ h h' => h.trans h') h.list
  record _ _ _ _ _ hf hext := .record hf fun v hv => by rw [hext v hv]; exact .refl
  signature hsig := by
    obtain ⟨meant, hmeant⟩ := h.signatures _ hsig
    refine ⟨meant, fun place σ t hσ ht => hmeant.toTy (fun x u q hu hq => ?_) ht⟩
    obtain ⟨v, rfl, hv⟩ := hσ x u hu
    exact .var (by rw [hv]; exact hq)

theorem Kinded.table (h : env.Kinded K) {table : AliasTable} (ht : env.aliasTable = .ok table) :
    table.Kinded K :=
  (aliasTable_spec (P := fun name entry => entry.Kinded K name) ht fun e he _ => h.aliases e he).1

end Environment

namespace Kinds

def loose : Kinds := ⟨False, fun _ _ _ => .type⟩

theorem loose_same {p q : Place} : loose.Same p q := False.elim

end Kinds

theorem Signature.kinded_loose {M : String → Place → Prop} (hM : ∀ x p, M x p) (sig : Signature)
    (p : Place) : sig.Kinded .loose M p := by
  induction sig generalizing p with
  | var x => exact .var (hM x p)
  | con name args ih =>
    exact .con Kinds.loose_same fun i a ha => ih a (List.mem_of_getElem? ha) _
  | func arg ret iha ihr => exact .func Kinds.loose_same (iha _) (ihr _)
  | record fields ext ih => exact .record (fun f hf => ih f hf _) fun x _ => hM x _

theorem Ty.kinded_loose {t : Ty} (hM : ∀ v ∈ t.vars, ∀ q, M v q) (p : Place) :
    t.Kinded .loose M p := by
  induction t generalizing p with
  | var v => exact .var (hM v (by simp) p)
  | func arg ret iha ihr =>
    exact .func Kinds.loose_same (iha (fun v hv => hM v (by simp [hv])) _)
      (ihr (fun v hv => hM v (by simp [hv])) _)
  | app name args ih =>
    refine .app Kinds.loose_same fun i a ha => ?_
    have hmem := List.mem_of_getElem? ha
    exact ih a hmem (fun v hv => hM v (mem_vars_app.mpr ⟨a, hmem, hv⟩)) _
  | record fields ext ih =>
    refine .record (fun f hf => ih f hf (fun v hv => hM v ?_) _) fun v hv => hM v ?_ _
    · exact mem_vars_record.mpr (.inl ⟨f, hf, hv⟩)
    · exact mem_vars_record.mpr (.inr hv)

theorem Alias.kinded_loose (name : String) (entry : Alias) : entry.Kinded .loose name :=
  Signature.kinded_loose (fun _ _ _ _ => Kinds.loose_same) _ _

theorem Environment.kinded_loose (env : Environment) : env.Kinded .loose :=
  ⟨fun e _ => Alias.kinded_loose e.1 e.2,
    fun sig _ => ⟨fun _ => .type, Signature.kinded_loose (fun _ _ => Kinds.loose_same) sig _⟩,
    Kinds.loose_same⟩

end TypeSolver
