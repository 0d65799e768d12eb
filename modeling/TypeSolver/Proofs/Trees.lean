import TypeSolver.Proofs.Avoidance

/-!
# TypeSolver.Proofs.Trees

Unification without records, seen from the trees that the types stand for. `Unifies` works off a
list of pairs of trees. It knows of each unbound class only its rank and its hint (`Tag`), and of
each variable only its tree. How a store spreads a tree over bound variables plays no part.

Derivations from states that differ in the names of the classes end in states that differ in the
same way (`Unifies.together`), and classes that no tree of the list mentions are left alone
(`Unifies.frame`).
-/

namespace TypeSolver

namespace Meaning

/-- The tree is built from variables, functions and applications. -/
inductive Plain : Meaning → Prop where
  | var (r : Var) : Plain (.var r)
  | func {a b : Meaning} : Plain a → Plain b → Plain (.func a b)
  | app {name : String} {args : List Meaning} : (∀ a ∈ args, Plain a) → Plain (.app name args)

variable {m t : Meaning} {σ τ : Valuation} {r a : Var}

theorem Plain.subst_congr (h : m.Plain) (hr : ∀ r, m.Mentions r → σ r = τ r) :
    m.subst σ = m.subst τ := by
  induction h with
  | var r => rw [subst, subst, hr r .var]
  | func _ _ iha ihb =>
    rw [subst, subst, iha fun r h => hr r (.arg h), ihb fun r h => hr r (.ret h)]
  | app _ ih =>
    rw [subst, subst, List.map_congr_left fun a ha => ih a ha fun r h => hr r (.app ha h)]

theorem Plain.subst_subst (h : m.Plain) :
    (m.subst σ).subst τ = m.subst fun r => (σ r).subst τ := by
  induction h with
  | var r => rw [subst, subst]
  | func _ _ iha ihb => rw [subst, subst, subst, iha, ihb]
  | app _ ih =>
    rw [subst, subst, subst, List.map_map]
    congr 1
    exact List.map_congr_left ih

theorem Plain.subst_var (h : m.Plain) : m.subst .var = m := by
  induction h with
  | var r => rw [subst]
  | func _ _ iha ihb => rw [subst, iha, ihb]
  | app _ ih => rw [subst, List.map_congr_left ih, List.map_id']

theorem Plain.subst_eq_self (h : m.Plain) (hr : ∀ r, m.Mentions r → σ r = .var r) :
    m.subst σ = m :=
  (h.subst_congr hr).trans h.subst_var

theorem Plain.subst (h : m.Plain) (hσ : ∀ r, m.Mentions r → (σ r).Plain) : (m.subst σ).Plain := by
  induction h with
  | var r => rw [Meaning.subst]; exact hσ r .var
  | func _ _ iha ihb =>
    rw [Meaning.subst]
    exact .func (iha fun r h => hσ r (.arg h)) (ihb fun r h => hσ r (.ret h))
  | app _ ih =>
    rw [Meaning.subst]
    refine .app fun a ha => ?_
    obtain ⟨b, hb, rfl⟩ := List.mem_map.mp ha
    exact ih b hb fun r h => hσ r (.app hb h)

theorem Plain.tidy (h : m.Plain) : m.Tidy := by cases h <;> trivial

theorem Plain.mentions_subst (h : m.Plain) {x : Var} (hx : m.Mentions x)
    (hr : (σ x).Mentions r) : (m.subst σ).Mentions r := by
  induction h with
  | var y => cases hx; rw [Meaning.subst]; exact hr
  | func _ _ iha ihb =>
    rw [Meaning.subst]
    rcases mentions_func.mp hx with hx | hx
    · exact .arg (iha hx)
    · exact .ret (ihb hx)
  | app _ ih =>
    rw [Meaning.subst]
    obtain ⟨a, ha, hx⟩ := mentions_app.mp hx
    exact .app (List.mem_map_of_mem ha) (ih a ha hx)

def isVar : Meaning → Bool
  | .var _ => true
  | _ => false

/-- The class `a` stands for the tree `t`, and the others for themselves. -/
def single (a : Var) (t : Meaning) : Valuation := fun x => if x = a then t else .var x

theorem Plain.single (h : t.Plain) (x : Var) : (single a t x).Plain := by
  rw [Meaning.single]
  split
  · exact h
  · exact .var x

theorem single_self : single a t a = t := if_pos rfl

theorem single_of_ne (h : r ≠ a) : single a t r = .var r := if_neg h

theorem mentions_of_single (h : (m.subst (single a t)).Mentions r) :
    m.Mentions r ∨ m.Mentions a ∧ t.Mentions r := by
  obtain ⟨x, hx, hr⟩ := exists_mentions_of_subst h
  by_cases hxa : x = a
  · subst hxa
    rw [single_self] at hr
    exact .inr ⟨hx, hr⟩
  · rw [single_of_ne hxa, mentions_var] at hr
    exact .inl (hr ▸ hx)

def renamed (π : Var → Var) (m : Meaning) : Meaning := m.subst fun r => .var (π r)

variable {π : Var → Var} {name : String} {args : List Meaning}

theorem renamed_var : (Meaning.var r).renamed π = .var (π r) := by
  rw [renamed, subst]

theorem renamed_func {a b : Meaning} :
    (Meaning.func a b).renamed π = .func (a.renamed π) (b.renamed π) := by
  simp only [renamed, subst]

theorem renamed_app : (Meaning.app name args).renamed π = .app name (args.map (·.renamed π)) := by
  simp only [renamed, subst]

theorem isVar_renamed (h : m.Plain) : (m.renamed π).isVar = m.isVar := by
  cases h with
  | var => rw [renamed_var]; rfl
  | func => rw [renamed_func]; rfl
  | app => rw [renamed_app]; rfl

theorem Plain.renamed (h : m.Plain) : (m.renamed π).Plain := h.subst fun _ _ => .var _

theorem Plain.mentions_renamed (h : m.Plain) :
    (m.renamed π).Mentions r ↔ ∃ x, m.Mentions x ∧ π x = r := by
  constructor
  · intro hr
    obtain ⟨x, hx, hr⟩ := exists_mentions_of_subst hr
    exact ⟨x, hx, mentions_var.mp hr⟩
  · rintro ⟨x, hx, rfl⟩
    exact h.mentions_subst hx .var

def Within (D : Var → Prop) (m : Meaning) : Prop := ∀ r, m.Mentions r → D r

variable {D : Var → Prop}

theorem within_var : (Meaning.var r).Within D ↔ D r :=
  ⟨fun h => h r .var, fun h _ hr => mentions_var.mp hr ▸ h⟩

theorem within_func {a b : Meaning} : (Meaning.func a b).Within D ↔ a.Within D ∧ b.Within D :=
  ⟨fun h => ⟨fun r hr => h r (.arg hr), fun r hr => h r (.ret hr)⟩,
    fun h r hr => (mentions_func.mp hr).elim (h.1 r) (h.2 r)⟩

theorem within_app : (Meaning.app name args).Within D ↔ ∀ a ∈ args, a.Within D := by
  constructor
  · exact fun h a ha r hr => h r (.app ha hr)
  · intro h r hr
    obtain ⟨a, ha, hr⟩ := mentions_app.mp hr
    exact h a ha r hr

theorem Within.single (hm : m.Within D) (ht : t.Within D) : (m.subst (single a t)).Within D :=
  fun r hr => (mentions_of_single hr).elim (hm r) fun h => ht r h.2

end Meaning

open Meaning

theorem Ty.FirstOrder.plain {table : AliasTable} {θ : Valuation} {t : Ty} (h : t.FirstOrder table)
    {m : Meaning} (hm : Denotes table θ t m) (hθ : ∀ v ∈ t.vars, (θ v).Plain) : m.Plain := by
  induction h generalizing m with
  | @var v => rw [Denotes.var_iff.mp hm]; exact hθ v (by simp)
  | func _ _ iha ihb =>
    obtain ⟨a, b, rfl, ha, hb⟩ := Denotes.func_iff.mp hm
    exact .func (iha ha fun v hv => hθ v (Ty.mem_vars_func.mpr (.inl hv)))
      (ihb hb fun v hv => hθ v (Ty.mem_vars_func.mpr (.inr hv)))
  | @app name args hn hargs ih =>
    obtain ⟨ms, rfl, hms⟩ := (Denotes.app_iff (Ty.FirstOrder.app hn hargs).expand_ne).mp hm
    refine .app fun m hmem => ?_
    obtain ⟨a, ha, hm⟩ := exists_of_forall₂_right hms hmem
    exact ih a ha hm fun v hv => hθ v (Ty.mem_vars_app.mpr ⟨a, ha, hv⟩)

/-- What is known of an unbound class, besides that it is one. -/
structure Tag where
  rank : Rank
  hint : Option String

/-- A class that is mentioned where another is bound sinks to the rank of the other. If it is all
that the other stands for, then it takes over the hint, unless it has one of its own. -/
def Tag.sunk (whole : Bool) (c d : Tag) : Tag :=
  ⟨min c.rank d.rank, if whole then c.hint <|> d.hint else c.hint⟩

abbrev Tags := Var → Option Tag

/-- The tags after the class `a` was bound to the tree `t`. -/
structure Tags.Binds (i : Tags) (a : Var) (t : Meaning) (i' : Tags) : Prop where
  gone : i' a = none
  sunk : ∀ x, t.Mentions x → i' x = (i x).bind fun c => (i a).map (c.sunk t.isVar)
  kept : ∀ x, x ≠ a → ¬ t.Mentions x → i' x = i x

abbrev Pairs := List (Meaning × Meaning)

def Pairs.subst (σ : Valuation) (ws : Pairs) : Pairs := ws.map fun w => (w.1.subst σ, w.2.subst σ)

theorem Pairs.subst_append {σ : Valuation} {ws vs : Pairs} :
    Pairs.subst σ (ws ++ vs) = ws.subst σ ++ vs.subst σ := List.map_append

def Pairs.Within (D : Var → Prop) (ws : Pairs) : Prop := ∀ w ∈ ws, w.1.Within D ∧ w.2.Within D

def Pairs.Plain (ws : Pairs) : Prop := ∀ w ∈ ws, w.1.Plain ∧ w.2.Plain

/-- Making the pairs equal, from left to right, takes the tags and the trees of the variables to
those behind the list. -/
inductive Unifies : Tags → Valuation → Pairs → Tags → Valuation → Prop where
  | done {i : Tags} {θ : Valuation} : Unifies i θ [] i θ
  | same {r : Var} {ws : Pairs} {i i' : Tags} {θ θ' : Valuation} : Unifies i θ ws i' θ' →
      Unifies i θ ((.var r, .var r) :: ws) i' θ'
  | left {a : Var} {t : Meaning} {ws : Pairs} {i i1 i' : Tags} {θ θ' : Valuation} :
      ¬ t.Mentions a → i.Binds a t i1 →
      Unifies i1 (fun v => (θ v).subst (single a t)) (ws.subst (single a t)) i' θ' →
      Unifies i θ ((.var a, t) :: ws) i' θ'
  | right {a : Var} {t : Meaning} {ws : Pairs} {i i1 i' : Tags} {θ θ' : Valuation} :
      t.isVar = false → ¬ t.Mentions a → i.Binds a t i1 →
      Unifies i1 (fun v => (θ v).subst (single a t)) (ws.subst (single a t)) i' θ' →
      Unifies i θ ((t, .var a) :: ws) i' θ'
  | func {a b c d : Meaning} {ws : Pairs} {i i' : Tags} {θ θ' : Valuation} :
      Unifies i θ ((a, c) :: (b, d) :: ws) i' θ' →
      Unifies i θ ((.func a b, .func c d) :: ws) i' θ'
  | app {name : String} {as bs : List Meaning} {ws : Pairs} {i i' : Tags} {θ θ' : Valuation} :
      as.length = bs.length → Unifies i θ (as.zip bs ++ ws) i' θ' →
      Unifies i θ ((.app name as, .app name bs) :: ws) i' θ'

namespace Unifies

variable {i i' : Tags} {θ θ' : Valuation} {ws : Pairs}

theorem skip {m : Meaning} (hm : m.Plain) (h : Unifies i θ ws i' θ') :
    Unifies i θ ((m, m) :: ws) i' θ' := by
  induction hm generalizing ws with
  | var r => exact .same h
  | func _ _ iha ihb => exact .func (iha (ihb h))
  | @app name args hargs ih =>
    refine .app rfl ?_
    clear name hargs
    induction args with
    | nil => exact h
    | cons a as ihas => exact ih a (by simp) (ihas fun b hb => ih b (by simp [hb]))

end Unifies

section Frame

variable {D : Var → Prop} {ws vs : Pairs}

variable {l r t : Meaning} {a : Var} {as bs : List Meaning}

theorem Pairs.within_cons :
    Pairs.Within D ((l, r) :: ws) ↔ (l.Within D ∧ r.Within D) ∧ ws.Within D :=
  List.forall_mem_cons

theorem Pairs.plain_cons : Pairs.Plain ((l, r) :: ws) ↔ (l.Plain ∧ r.Plain) ∧ ws.Plain :=
  List.forall_mem_cons

theorem Pairs.Within.single (h : ws.Within D) (ht : t.Within D) :
    Pairs.Within D (ws.subst (single a t)) := by
  intro w hw
  obtain ⟨q, hq, rfl⟩ := List.mem_map.mp hw
  exact ⟨(h q hq).1.single ht, (h q hq).2.single ht⟩

theorem Pairs.Plain.single (h : ws.Plain) (ht : t.Plain) : Pairs.Plain (ws.subst (single a t)) := by
  intro w hw
  obtain ⟨q, hq, rfl⟩ := List.mem_map.mp hw
  exact ⟨(h q hq).1.subst fun x _ => ht.single x, (h q hq).2.subst fun x _ => ht.single x⟩

theorem Pairs.forall_zip {P : Meaning → Prop} (ha : ∀ a ∈ as, P a) (hb : ∀ b ∈ bs, P b)
    (h : ∀ w ∈ ws, P w.1 ∧ P w.2) : ∀ w ∈ as.zip bs ++ ws, P w.1 ∧ P w.2 := by
  intro w hw
  rcases List.mem_append.mp hw with hw | hw
  · obtain ⟨h1, h2⟩ := List.of_mem_zip hw
    exact ⟨ha _ h1, hb _ h2⟩
  · exact h w hw

/-! The pairs of the parts are within what the whole pair is, and plain if it is. -/

variable {name name' : String} {b d : Meaning}

theorem Pairs.Within.func (h : Pairs.Within D ((.func l b, .func r d) :: ws)) :
    Pairs.Within D ((l, r) :: (b, d) :: ws) := by
  obtain ⟨⟨hl, hr⟩, h⟩ := Pairs.within_cons.mp h
  obtain ⟨ha, hb⟩ := within_func.mp hl
  obtain ⟨hc, hd⟩ := within_func.mp hr
  exact Pairs.within_cons.mpr ⟨⟨ha, hc⟩, Pairs.within_cons.mpr ⟨⟨hb, hd⟩, h⟩⟩

theorem Pairs.Within.app (h : Pairs.Within D ((.app name as, .app name' bs) :: ws)) :
    Pairs.Within D (as.zip bs ++ ws) := by
  obtain ⟨⟨hl, hr⟩, h⟩ := Pairs.within_cons.mp h
  exact Pairs.forall_zip (within_app.mp hl) (within_app.mp hr) h

theorem Pairs.Plain.func (h : Pairs.Plain ((.func l b, .func r d) :: ws)) :
    Pairs.Plain ((l, r) :: (b, d) :: ws) := by
  obtain ⟨⟨hl, hr⟩, h⟩ := Pairs.plain_cons.mp h
  cases hl with | func ha hb => ?_
  cases hr with | func hc hd => ?_
  exact Pairs.plain_cons.mpr ⟨⟨ha, hc⟩, Pairs.plain_cons.mpr ⟨⟨hb, hd⟩, h⟩⟩

theorem Pairs.Plain.app (h : Pairs.Plain ((.app name as, .app name' bs) :: ws)) :
    Pairs.Plain (as.zip bs ++ ws) := by
  obtain ⟨⟨hl, hr⟩, h⟩ := Pairs.plain_cons.mp h
  cases hl with | app ha => ?_
  cases hr with | app hb => ?_
  exact Pairs.forall_zip ha hb h

/-- What happens within the classes `D` is not seen outside, and what is within stays there. -/
structure Framed (D : Var → Prop) (i : Tags) (θ : Valuation) (i' : Tags) (θ' : Valuation) :
    Prop where
  tags : ∀ r, ¬ D r → i' r = i r
  outside : ∀ v, (θ v).Plain → (θ v).Avoids D → θ' v = θ v
  inside : ∀ v, (θ v).Within D → (θ' v).Within D

variable {i i1 i' : Tags} {θ θ' : Valuation}

theorem Framed.bind (ha : D a) (ht : t.Within D) (hb : i.Binds a t i1)
    (h : Framed D i1 (fun v => (θ v).subst (Meaning.single a t)) i' θ') : Framed D i θ i' θ' := by
  refine ⟨fun r hr => ?_, fun v hp hv => ?_, fun v hv => h.inside v (hv.single ht)⟩
  · rw [h.tags r hr]
    exact hb.kept r (fun heq => hr (heq ▸ ha)) fun hm => hr (ht r hm)
  · have hself : (θ v).subst (Meaning.single a t) = θ v :=
      hp.subst_eq_self fun r hr => single_of_ne fun heq => hv r hr (heq ▸ ha)
    rw [h.outside v (by rw [hself]; exact hp) (by rw [hself]; exact hv), hself]

theorem Unifies.frame (h : Unifies i θ ws i' θ') (hws : ws.Within D) : Framed D i θ i' θ' := by
  induction h with
  | done => exact ⟨fun _ _ => rfl, fun _ _ _ => rfl, fun _ hv => hv⟩
  | same _ ih => exact ih (Pairs.within_cons.mp hws).2
  | left _ hb _ ih =>
    obtain ⟨⟨ha, ht⟩, hws⟩ := Pairs.within_cons.mp hws
    exact (ih (hws.single ht)).bind (within_var.mp ha) ht hb
  | right _ _ hb _ ih =>
    obtain ⟨⟨ht, ha⟩, hws⟩ := Pairs.within_cons.mp hws
    exact (ih (hws.single ht)).bind (within_var.mp ha) ht hb
  | func _ ih => exact ih hws.func
  | app _ _ ih => exact ih hws.app

/-- The classes `D` are inside a boundary. -/
def Tags.Inside (D : Var → Prop) (i : Tags) : Prop := ∀ r c, D r → i r = some c → 0 < c.rank

theorem Tags.Binds.inside (hb : i.Binds a t i1) (h : i.Inside D) (ha : D a) : i1.Inside D := by
  intro r c hr hc
  by_cases hra : r = a
  · rw [hra, hb.gone] at hc
    cases hc
  · by_cases hm : t.Mentions r
    · rw [hb.sunk r hm] at hc
      obtain ⟨d, hd, hc⟩ := Option.bind_eq_some_iff.mp hc
      obtain ⟨e, he, rfl⟩ := Option.map_eq_some_iff.mp hc
      exact Nat.lt_min.mpr ⟨h r d hr hd, h a e ha he⟩
    · rw [hb.kept r hra hm] at hc
      exact h r c hr hc

theorem Unifies.inside (h : Unifies i θ ws i' θ') (hws : ws.Within D) (hi : i.Inside D) :
    i'.Inside D := by
  induction h with
  | done => exact hi
  | same _ ih => exact ih (Pairs.within_cons.mp hws).2 hi
  | left _ hb _ ih =>
    obtain ⟨⟨ha, ht⟩, hws⟩ := Pairs.within_cons.mp hws
    exact ih (hws.single ht) (hb.inside hi (within_var.mp ha))
  | right _ _ hb _ ih =>
    obtain ⟨⟨ht, ha⟩, hws⟩ := Pairs.within_cons.mp hws
    exact ih (hws.single ht) (hb.inside hi (within_var.mp ha))
  | func _ ih => exact ih hws.func hi
  | app _ _ ih => exact ih hws.app hi

end Frame

section Together

variable {D : Var → Prop} {π : Var → Var} {ws : Pairs}
  {i1 i1' j1 i2 i2' j2 : Tags} {θ1 θ1' θ2 θ2' : Valuation}

/-- Read through `π`, the variables `D` of the first state are variables of the second. Those that
are classes have the same tags, and all have the same trees, over `D` again. -/
structure Twin (D : Var → Prop) (π : Var → Var) (i1 : Tags) (θ1 : Valuation) (i2 : Tags)
    (θ2 : Valuation) : Prop where
  inj : ∀ a b, D a → D b → π a = π b → a = b
  tags : ∀ r, D r → i2 (π r) = i1 r
  plain : ∀ v, D v → (θ1 v).Plain
  within : ∀ v, D v → (θ1 v).Within D
  trees : ∀ v, D v → θ2 (π v) = (θ1 v).renamed π

def Pairs.renamed (π : Var → Var) (ws : Pairs) : Pairs :=
  ws.map fun w => (w.1.renamed π, w.2.renamed π)

variable {a : Var} {m t : Meaning}

theorem renamed_single (hinj : ∀ a b, D a → D b → π a = π b → a = b) (ha : D a) (hm : m.Plain)
    (hD : m.Within D) :
    (m.renamed π).subst (single (π a) (t.renamed π)) = (m.subst (single a t)).renamed π := by
  simp only [Meaning.renamed, hm.subst_subst, Meaning.subst]
  refine hm.subst_congr fun x hx => ?_
  by_cases hxa : x = a
  · rw [hxa, single_self, single_self]
  · rw [single_of_ne hxa, single_of_ne fun heq => hxa (hinj x a (hD x hx) ha heq), subst]

theorem Pairs.renamed_single (hinj : ∀ a b, D a → D b → π a = π b → a = b) (ha : D a)
    (hp : ws.Plain) (hD : ws.Within D) :
    (ws.renamed π).subst (single (π a) (t.renamed π)) = (ws.subst (single a t)).renamed π := by
  rw [Pairs.subst, Pairs.renamed, Pairs.renamed, Pairs.subst, List.map_map, List.map_map]
  refine List.map_congr_left fun w hw => ?_
  simp only [Function.comp_apply, TypeSolver.renamed_single hinj ha (hp w hw).1 (hD w hw).1,
    TypeSolver.renamed_single hinj ha (hp w hw).2 (hD w hw).2]

theorem Twin.bind (h : Twin D π i1 θ1 i2 θ2) (ha : D a) (ht : t.Plain) (hD : t.Within D)
    (hb1 : i1.Binds a t j1) (hb2 : i2.Binds (π a) (t.renamed π) j2) :
    Twin D π j1 (fun v => (θ1 v).subst (single a t)) j2
      (fun v => (θ2 v).subst (single (π a) (t.renamed π))) := by
  refine ⟨h.inj, fun r hr => ?_, fun v hv => (h.plain v hv).subst fun x _ => ht.single x,
    fun v hv => (h.within v hv).single hD, fun v hv => ?_⟩
  · by_cases hra : r = a
    · rw [hra, hb1.gone, hb2.gone]
    · by_cases hm : t.Mentions r
      · rw [hb1.sunk r hm, hb2.sunk (π r) (ht.mentions_renamed.mpr ⟨r, hm, rfl⟩), h.tags r hr,
          h.tags a ha, isVar_renamed ht]
      · rw [hb1.kept r hra hm, hb2.kept (π r) (fun heq => hra (h.inj r a hr ha heq)) ?_, h.tags r hr]
        rintro hm'
        obtain ⟨x, hx, heq⟩ := ht.mentions_renamed.mp hm'
        exact hm (h.inj x r (hD x hx) hr heq ▸ hx)
  · rw [h.trees v hv]
    exact renamed_single h.inj ha (h.plain v hv) (h.within v hv)

theorem eq_var_of_renamed (hm : m.Plain) {x : Var} (h : m.renamed π = .var x) :
    ∃ b, m = .var b ∧ π b = x := by
  cases hm with
  | var b => exact ⟨b, rfl, by rw [renamed_var] at h; exact Meaning.var.inj h⟩
  | func => rw [renamed_func] at h; cases h
  | app => rw [renamed_app] at h; cases h

theorem Unifies.together (h1 : Unifies i1 θ1 ws i1' θ1') (h2 : Unifies i2 θ2 (ws.renamed π) i2' θ2')
    (h : Twin D π i1 θ1 i2 θ2) (hp : ws.Plain) (hD : ws.Within D) :
    Twin D π i1' θ1' i2' θ2' := by
  induction h1 generalizing i2 θ2 with
  | done => cases h2; exact h
  | @same r ws _ _ _ _ _ ih =>
    obtain ⟨_, hp⟩ := Pairs.plain_cons.mp hp
    obtain ⟨_, hD⟩ := Pairs.within_cons.mp hD
    simp only [Pairs.renamed, List.map_cons, renamed_var] at h2
    cases h2 with
    | same h2 => exact ih h2 h hp hD
    | left hm => exact absurd .var hm
    | right hm => cases hm
  | @left a t ws _ _ _ _ _ hm hb _ ih =>
    obtain ⟨⟨_, ht⟩, hp⟩ := Pairs.plain_cons.mp hp
    obtain ⟨⟨ha, htD⟩, hD⟩ := Pairs.within_cons.mp hD
    have ha := within_var.mp ha
    simp only [Pairs.renamed, List.map_cons, renamed_var] at h2
    generalize heq : t.renamed π = t' at h2
    cases h2 with
    | same =>
      obtain ⟨b, rfl, hba⟩ := eq_var_of_renamed ht heq
      exact absurd (h.inj b a (within_var.mp htD) ha hba ▸ .var) hm
    | left hm' hb' h2 =>
      subst heq
      refine ih ?_ (h.bind ha ht htD hb hb') (hp.single ht) (hD.single htD)
      rw [← Pairs.renamed_single h.inj ha hp hD]
      exact h2
    | right hm => cases hm
  | @right a t ws _ _ _ _ _ hv hm hb _ ih =>
    obtain ⟨⟨ht, _⟩, hp⟩ := Pairs.plain_cons.mp hp
    obtain ⟨⟨htD, ha⟩, hD⟩ := Pairs.within_cons.mp hD
    have ha := within_var.mp ha
    simp only [Pairs.renamed, List.map_cons, renamed_var] at h2
    have hv' : (t.renamed π).isVar = false := by rw [isVar_renamed ht, hv]
    generalize heq : t.renamed π = t' at h2 hv'
    cases h2 with
    | same => cases hv'
    | left => cases hv'
    | right _ hm' hb' h2 =>
      subst heq
      refine ih ?_ (h.bind ha ht htD hb hb') (hp.single ht) (hD.single htD)
      rw [← Pairs.renamed_single h.inj ha hp hD]
      exact h2
  | @func a b c d ws _ _ _ _ _ ih =>
    simp only [Pairs.renamed, List.map_cons, renamed_func] at h2
    cases h2 with
    | func h2 => exact ih h2 h hp.func hD.func
  | @app name as bs ws _ _ _ _ _ _ ih =>
    simp only [Pairs.renamed, List.map_cons, renamed_app] at h2
    cases h2 with
    | app _ h2 =>
      refine ih ?_ h hp.app hD.app
      rw [Pairs.renamed, List.map_append]
      rw [List.zip_map] at h2
      exact h2

end Together

end TypeSolver
