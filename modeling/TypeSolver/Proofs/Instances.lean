import TypeSolver.Proofs.Copies
import TypeSolver.Proofs.RowParameters
import TypeSolver.Proofs.Runs

/-!
# TypeSolver.Proofs.Instances

Instances of a scheme are renamed copies. In a solution that gives each copy the meaning of the
quantifier it was made for, a type and its copy have one meaning (`Copied.same`), so what the copy
shows is what the type shows with the quantifiers renamed.

Copying does not expand aliases, and this is where it can go wrong. An extension that stands for an
application stays as it is, quantifiers and all, although the application may be that of an alias
for a record. And a variable that an alias uses as a row is replaced by what it stands for, which
may be nothing that the alias can take. `RowsOf` excludes both.
-/

namespace TypeSolver
namespace Store

variable {s : Store}

/-- Following `t` through its parts and through bindings leads to `u`. -/
inductive Leads (s : Store) (u : Ty) : Ty → Prop where
  | refl : Leads s u u
  | bound {v : Var} {t : Ty} : s.kind v = .bound t → Leads s u t → Leads s u (.var v)
  | arg {arg ret : Ty} : Leads s u arg → Leads s u (.func arg ret)
  | ret {arg ret : Ty} : Leads s u ret → Leads s u (.func arg ret)
  | app {name : String} {args : List Ty} {a : Ty} : a ∈ args → Leads s u a →
      Leads s u (.app name args)
  | field {fields : List (String × Ty)} {ext : Option Var} {f : String × Ty} : f ∈ fields →
      Leads s u f.2 → Leads s u (.record fields ext)
  | ext {fields : List (String × Ty)} {v : Var} : Leads s u (.var v) →
      Leads s u (.record fields (some v))

theorem Leads.fits (h : s.Formed) {t u : Ty} (hl : s.Leads u t) (ht : t.Fits s.size) :
    u.Fits s.size := by
  induction hl with
  | refl => exact ht
  | bound hk _ ih => exact ih (h.fits _ _ hk)
  | arg _ ih => exact ih (Ty.over_func.mp ht).1
  | ret _ ih => exact ih (Ty.over_func.mp ht).2
  | app ha _ ih => exact ih (Ty.over_app.mp ht _ ha)
  | field hf _ ih => exact ih ((Ty.over_record.mp ht).2.1 _ hf)
  | ext _ ih => exact ih (Ty.over_var.mpr ((Ty.over_record.mp ht).2.2 _ rfl))

/-- The variable can be put behind the fields of a record: it is unbound or given up, or it stands
for a record, perhaps through other variables. -/
inductive IsRow (s : Store) : Var → Prop where
  | free {v : Var} : s.kind v = .free → IsRow s v
  | poisoned {v : Var} : s.kind v = .poisoned → IsRow s v
  | record {v : Var} {fields : List (String × Ty)} {ext : Option Var} :
      s.kind v = .bound (.record fields ext) → IsRow s v
  | var {v w : Var} : s.kind v = .bound (.var w) → IsRow s w → IsRow s v

/-- Where `t` leads to an alias that puts a parameter behind the fields of a record, a variable in
its place is a row. -/
def ArgumentRows (s : Store) (t : Ty) : Prop :=
  ∀ name args entry p v, s.Leads (.app name args) t → Assoc.get? s.aliases name = some entry →
    (p, .var v) ∈ entry.params.zip args → Signature.RowParameter s.aliases p entry.body → s.IsRow v

theorem ArgumentRows.of_leads {t t' : Ty} (h : s.ArgumentRows t)
    (hl : ∀ u, s.Leads u t' → s.Leads u t) : s.ArgumentRows t' :=
  fun name args entry p v happ => h name args entry p v (hl _ happ)

/-- What `t` leads to uses variables as rows only if they are rows: as arguments of aliases, and
behind the fields of a record. There an exception is made for what leads to no quantifier. -/
structure RowsOf (s : Store) (quantifiers : List Var) (t : Ty) : Prop where
  argument : s.ArgumentRows t
  extension : ∀ fields v, s.Leads (.record fields (some v)) t →
    s.IsRow v ∨ ∀ q ∈ quantifiers, ¬ s.Reaches v (s.root q)

end Store

namespace Copying

open Relation Store

variable {s : Store} {qs : List Var} {copies : List (Var × Var)} {t u : Ty}

/-! ## What copies are made of -/

theorem Copied.isRow (h : Copied s qs copies t u) (hv : ∀ v, t = .var v → s.IsRow v) :
    t.isRow = u.isRow := by
  induction h with
  | copy => rfl
  | @bound v t u hk _ ih =>
    cases hv v rfl with
    | free hf => rw [hf] at hk; cases hk
    | poisoned hp => rw [hp] at hk; cases hk
    | record hr => rw [hr] at hk; cases hk; exact ih nofun
    | var hw hrow =>
      rw [hw] at hk
      cases hk
      exact ih fun x hx => by cases hx; exact hrow
  | free => rfl
  | poisoned => rfl
  | func => rfl
  | app => rfl
  | closed => rfl
  | @opened fields fs v u => cases u <;> rfl

variable {V : Var → Prop} {fs : List (String × Ty)} {q w : Var}

theorem extend_over {v : Var} (hs : Assoc.Sorted fs) (hf : ∀ f ∈ fs, f.2.Over V) (hu : u.Over V)
    (hv : u.isRow = false → V v) : (extend fs v u).Over V := by
  have hrecord : ∀ {ext}, (∀ w, ext = some w → V w) → (Ty.record fs ext).Over V := fun hext =>
    Ty.over_record.mpr ⟨hs, hf, hext⟩
  cases u with
  | var w => exact hrecord fun x hx => by cases hx; exact Ty.over_var.mp hu
  | record more rest => exact Ty.over_union (hrecord (nofun : ∀ w, none = some w → V w)) hu
  | _ => exact hrecord fun x hx => by cases hx; exact hv rfl

theorem Copied.over (h : Copied s qs copies t u) (hs : s.Formed)
    (hcopy : ∀ q w, (q, w) ∈ copies → V w)
    (hfree : ∀ v, s.Leads (.var v) t → v < s.size → s.kind v = .free → s.root v ∉ qs → V v)
    (hpoisoned : ∀ v, v < s.size → s.kind v = .poisoned → V v)
    (hext : ∀ fields v, s.Leads (.record fields (some v)) t → v < s.size → s.IsRow v ∨ V v)
    (ht : t.Fits s.size) : u.Over V := by
  suffices hover : ∀ {t' u' : Ty}, Copied s qs copies t' u' → (∀ x, s.Leads x t' → s.Leads x t) →
      t'.Fits s.size → u'.Over V from hover h (fun _ hl => hl) ht
  intro t' u' h hleads ht
  have hfields : ∀ {fields fs : List (String × Ty)} {ext : Option Var},
      Assoc.keys fields = Assoc.keys fs →
      (∀ k t' u, ((k, t'), (k, u)) ∈ fields.zip fs → (∀ x, s.Leads x t' → s.Leads x t) →
        t'.Fits s.size → u.Over V) →
      (∀ x, s.Leads x (.record fields ext) → s.Leads x t) →
      (Ty.record fields ext).Fits s.size → Assoc.Sorted fs ∧ ∀ f ∈ fs, f.2.Over V := by
    intro fields fs ext hk ih hleads ht
    obtain ⟨hsort, hf, _⟩ := Ty.over_record.mp ht
    refine ⟨by rwa [Assoc.Sorted, ← hk], fun g hg => ?_⟩
    obtain ⟨f, hmem, _, hover⟩ := (Assoc.related_of_zip hk ih).exists_left hg
    exact hover (fun x hl => hleads x (.field hmem hl)) (hf f hmem)
  induction h with
  | copy h => exact Ty.over_var.mpr (hcopy _ _ h)
  | bound hk _ ih => exact ih (fun x hl => hleads x (.bound hk hl)) (hs.fits _ _ hk)
  | free hk hnq => exact Ty.over_var.mpr (hfree _ (hleads _ .refl) (ht.lt (by simp)) hk hnq)
  | poisoned hk => exact Ty.over_var.mpr (hpoisoned _ (ht.lt (by simp)) hk)
  | func _ _ iha ihr =>
    obtain ⟨ha, hr⟩ := Ty.over_func.mp ht
    exact Ty.over_func.mpr ⟨iha (fun x hl => hleads x (.arg hl)) ha,
      ihr (fun x hl => hleads x (.ret hl)) hr⟩
  | app hlen _ ih =>
    refine Ty.over_app.mpr fun b hb => ?_
    obtain ⟨a, ha, hab⟩ := exists_of_forall₂_right (forall₂_of_zip hlen ih) hb
    exact hab (fun x hl => hleads x (.app ha hl)) (Ty.over_app.mp ht a ha)
  | closed hk _ ih =>
    obtain ⟨hsort, hf⟩ := hfields hk ih hleads ht
    exact Ty.over_record.mpr ⟨hsort, hf, fun _ h => by cases h⟩
  | @opened fields fs v u hk _ hu ih ihv =>
    obtain ⟨hsort, hf⟩ := hfields hk ih hleads ht
    have hv := (Ty.over_record.mp ht).2.2 v rfl
    refine extend_over hsort hf
      (ihv (fun x hl => hleads x (.ext hl)) (Ty.over_var.mpr hv)) fun hrow => ?_
    refine (hext fields v (hleads _ .refl) hv).resolve_left fun hr => ?_
    have heq := hu.isRow fun x hx => by cases hx; exact hr
    rw [hrow] at heq
    cases heq

/-- All quantifiers that a type leads to have a copy. -/
theorem Copied.covers (h : Copied s qs copies t u) (hs : s.Forest)
    (hcopies : ∀ q w, (q, w) ∈ copies → s.kind q = .free) {v : Var} (hv : v ∈ t.vars)
    (hr : s.Reaches v q) (hq : q ∈ qs) (hfree : s.kind q = .free) : ∃ w, (q, w) ∈ copies := by
  induction h generalizing v with
  | @copy x w h =>
    obtain rfl := Ty.mem_vars_var.mp hv
    obtain rfl := hr.eq_root (by simp [hcopies _ _ h])
    exact ⟨w, h⟩
  | bound hk _ ih =>
    obtain rfl := Ty.mem_vars_var.mp hv
    rw [← kind_root hs] at hk
    rcases hr.of_bound hk with rfl | ⟨w, hw, hr⟩
    · rw [hk] at hfree; cases hfree
    · exact ih hw hr
  | free hk hnq =>
    obtain rfl := Ty.mem_vars_var.mp hv
    rw [← kind_root hs] at hk
    obtain rfl := hr.eq_root (by simp [hk])
    exact absurd hq hnq
  | poisoned hk =>
    obtain rfl := Ty.mem_vars_var.mp hv
    rw [← kind_root hs] at hk
    obtain rfl := hr.eq_root (by simp [hk])
    rw [hk] at hfree
    cases hfree
  | func _ _ iha ihr => exact (Ty.mem_vars_func.mp hv).elim (iha · hr) (ihr · hr)
  | app hlen _ ih =>
    obtain ⟨a, ha, hv⟩ := Ty.mem_vars_app.mp hv
    obtain ⟨b, _, hab⟩ := exists_of_forall₂_left (forall₂_of_zip hlen ih) ha
    exact hab hv hr
  | closed hk _ ih =>
    rcases Ty.mem_vars_record.mp hv with ⟨f, hf, hv⟩ | hv
    · obtain ⟨g, _, _, hfg⟩ :=
        exists_of_forall₂_left (Assoc.related_of_zip hk ih) hf
      exact hfg hv hr
    · cases hv
  | opened hk _ _ ih ihv =>
    rcases Ty.mem_vars_record.mp hv with ⟨f, hf, hv⟩ | hv
    · obtain ⟨g, _, _, hfg⟩ :=
        exists_of_forall₂_left (Assoc.related_of_zip hk ih) hf
      exact hfg hv hr
    · cases hv
      exact ihv (by simp) hr

/-! ## What copies mean -/

variable {Θ : Valuation} {n : Nat}

theorem Copied.fits (h : Copied s qs copies t u) (hs : s.Formed) (hn : s.size ≤ n)
    (hcopies : ∀ q w, (q, w) ∈ copies → w < n) (ht : t.Fits s.size) : u.Fits n :=
  h.over hs hcopies (fun _ _ hv _ _ => hv.trans_le hn)
    (fun _ hv _ => hv.trans_le hn)
    (fun _ _ _ hv => .inr (hv.trans_le hn)) ht

theorem extend_same {fields : List (String × Ty)} {v : Var} (hΘ : s.SolvedBy Θ)
    (hfs : Assoc.Sorted fs) (hrel : Assoc.Related (Same s.aliases Θ) fields fs) (hu : u.Fits n)
    (hv : Same s.aliases Θ (.var v) u) :
    Same s.aliases Θ (.record fields (some v)) (extend fs v u) := by
  obtain ⟨ms, hms, hms'⟩ := Same.exists_fields hrel
  obtain ⟨m, hvm, hum⟩ := hv
  rw [Denotes.var_iff.mp hvm] at hum
  refine ⟨Meaning.close ms (Θ v), Denotes.record_iff.mpr ⟨ms, rfl, hms⟩, ?_⟩
  cases u with
  | var w => exact Denotes.record_iff.mpr ⟨ms, by rw [Denotes.var_iff.mp hum]; rfl, hms'⟩
  | record more rest => exact hum.union hΘ.tidy hfs (Ty.over_record.mp hu).1 hms'
  | _ => exact Denotes.record_iff.mpr ⟨ms, rfl, hms'⟩

theorem Copied.same (h : Copied s qs copies t u) (hs : s.Formed) (hu : s.aliases.Usable)
    (hΘ : s.SolvedBy Θ) (hcopies : ∀ q w, (q, w) ∈ copies → Θ w = Θ q) (hn : s.size ≤ n)
    (hlt : ∀ q w, (q, w) ∈ copies → w < n) (hargs : s.ArgumentRows t) (ht : t.Fits s.size) :
    Same s.aliases Θ t u := by
  induction h with
  | @copy v w h =>
    refine ⟨Θ v, .var v, ?_⟩
    rw [← hΘ.root v, ← hcopies _ _ h]
    exact .var w
  | @bound v t u hk _ ih =>
    obtain ⟨m, htm, hum⟩ := ih (hargs.of_leads fun _ => .bound hk) (hs.fits _ _ hk)
    exact ⟨m, by rw [htm.unique (hΘ.bound v t hk)]; exact .var v, hum⟩
  | free => exact ⟨_, .var _, .var _⟩
  | poisoned => exact ⟨_, .var _, .var _⟩
  | func _ _ iha ihr =>
    obtain ⟨ha, hr⟩ := Ty.over_func.mp ht
    exact (iha (hargs.of_leads fun _ => .arg) ha).func (ihr (hargs.of_leads fun _ => .ret) hr)
  | @app name args ts hlen hcopied ih =>
    have hover : ∀ a ∈ args, a.Fits n := fun a ha => Ty.Fits.mono (Ty.over_app.mp ht a ha) hn
    have hcopy : Copied s qs copies (.app name args) (.app name ts) := .app hlen hcopied
    have hover' := Ty.over_app.mp (hcopy.fits hs hn hlt ht)
    refine hu.same_app hΘ.tidy hover hover' (forall₂_of_zip hlen fun a b hab => ?_) ?_
    · have ha := (List.of_mem_zip hab).1
      exact ih a b hab (hargs.of_leads fun _ => .app ha) (Ty.over_app.mp ht a ha)
    · rintro entry hentry ⟨p, a, b⟩ hq hparam
      refine (hcopied a b (List.of_mem_zip hq).2).isRow fun v hv => ?_
      refine hargs name args entry p v .refl hentry ?_ hparam
      rw [← List.map_fst_zip (Nat.le_of_eq hlen), List.zip_map_right, List.mem_map]
      exact ⟨(p, a, b), hq, by rw [← hv]; rfl⟩
  | closed hk _ ih =>
    obtain ⟨_, hf, _⟩ := Ty.over_record.mp ht
    have hrel : Assoc.Related (Same s.aliases Θ) _ _ := ((Assoc.related_of_zip hk ih).of_mem
      fun f hmem => hargs.of_leads fun _ => .field hmem).of_mem hf
    obtain ⟨ms, hms, hms'⟩ := Same.exists_fields hrel
    exact ⟨_, Denotes.record_iff.mpr ⟨ms, rfl, hms⟩, Denotes.record_iff.mpr ⟨ms, rfl, hms'⟩⟩
  | @opened fields fs v u hk _ hcopied ih ihv =>
    obtain ⟨hsort, hf, hext⟩ := Ty.over_record.mp ht
    have hv : (Ty.var v).Fits s.size := Ty.over_var.mpr (hext v rfl)
    have hrel : Assoc.Related (Same s.aliases Θ) _ _ := ((Assoc.related_of_zip hk ih).of_mem
      fun f hmem => hargs.of_leads fun _ => .field hmem).of_mem hf
    exact extend_same hΘ (by rwa [Assoc.Sorted, ← hk]) hrel (hcopied.fits hs hn hlt hv)
      (ihv (hargs.of_leads fun _ => .ext) hv)

/-! ## The store afterwards -/

variable {rank : Rank} {c : Copying} {v : Var}

section

variable (hc : Extends s qs rank c)

include hc

theorem Extends.kind_old (hv : v < s.size) : c.store.kind v = s.kind v := by
  rw [Store.kind, hc.content v hv, Store.kind]

theorem Extends.kind_new (hv : s.size ≤ v) (hlt : v < c.store.size) : c.store.kind v = .free := by
  obtain ⟨hint, hcon⟩ := hc.unbound v hv hlt
  exact kind_eq_free.mpr ⟨rank, hint, hcon⟩

theorem Extends.bound_iff : c.store.kind v = .bound t ↔ s.kind v = .bound t := by
  rcases Nat.lt_or_ge v s.size with hv | hv
  · rw [hc.kind_old hv]
  · constructor
    · intro hk
      rw [hc.kind_new hv (lt_of_kind (by rw [hk]; simp))] at hk
      cases hk
    · intro hk
      exact absurd hv (lt_of_kind (by rw [hk]; simp)).not_ge

theorem Extends.reaches {r : Var} : c.store.Reaches v r ↔ s.Reaches v r := by
  have he : c.store.Edge = s.Edge := by
    funext a b
    simp only [Edge, hc.bound_iff, hc.root]
  rw [Reaches, Reaches, hc.root, he]

theorem Extends.formed (hs : s.Formed) : c.store.Formed :=
  ⟨hc.forest, fun v t hk => (hs.fits v t (hc.bound_iff.mp hk)).mono hc.size_le⟩

theorem Extends.grounded (hg : s.Grounded) : c.store.Grounded :=
  hg.mono fun v r => by simp only [Edge, hc.bound_iff, hc.root]; exact id

theorem Extends.solvedBy {θ : Valuation} (hθ : c.store.SolvedBy θ) : s.SolvedBy θ where
  root v := by rw [← hc.root, hθ.root]
  bound v t hk := by rw [← hc.aliases]; exact hθ.bound v t (hc.bound_iff.mpr hk)
  poisoned v hv hk :=
    hθ.poisoned v (hv.trans_le hc.size_le) (by rw [hc.kind_old hv]; exact hk)
  tidy := hθ.tidy

theorem Extends.reading {θ : Valuation} (hθ : c.store.Reading θ) : s.Reading θ where
  toSolvedBy := hc.solvedBy hθ.toSolvedBy
  free v hk := by
    rw [← hc.root]
    exact hθ.free v (by rw [hc.kind_old (lt_of_kind (by rw [hk]; simp))]; exact hk)

end

/-! ## Renaming -/

def renamed (copies : List (Var × Var)) (v : Var) : Var := (Assoc.get? copies v).getD v

theorem renamed_of_not_mem (h : ∀ w, (v, w) ∉ copies) : renamed copies v = v := by
  rw [renamed]
  cases hget : Assoc.get? copies v with
  | none => rfl
  | some w => exact absurd (Assoc.mem_of_get? hget) (h w)

section

variable (hc : Extends s qs rank c)

include hc

theorem Extends.renamed_eq (h : (q, w) ∈ c.copies) : renamed c.copies q = w := by
  rw [renamed]
  cases hget : Assoc.get? c.copies q with
  | none => exact absurd (List.mem_map_of_mem (f := Prod.fst) h) (Assoc.get?_eq_none_iff.mp hget)
  | some w' => exact hc.functional q w' w (Assoc.mem_of_get? hget) h

theorem Extends.source_lt (h : (q, w) ∈ c.copies) : q < s.size :=
  lt_of_kind (by rw [(hc.source q w h).2.1]; simp)

theorem Extends.renamed_inj {a b : Var} (ha : a < s.size) (hb : b < s.size)
    (h : renamed c.copies a = renamed c.copies b) : a = b := by
  by_cases hma : ∃ x, (a, x) ∈ c.copies <;> by_cases hmb : ∃ y, (b, y) ∈ c.copies
  · obtain ⟨x, hx⟩ := hma
    obtain ⟨y, hy⟩ := hmb
    rw [hc.renamed_eq hx, hc.renamed_eq hy] at h
    exact hc.injective a b y (h ▸ hx) hy
  · obtain ⟨x, hx⟩ := hma
    rw [hc.renamed_eq hx, renamed_of_not_mem (not_exists.mp hmb)] at h
    exact absurd (hc.target a x hx).1 (h ▸ hb).not_ge
  · obtain ⟨y, hy⟩ := hmb
    rw [hc.renamed_eq hy, renamed_of_not_mem (not_exists.mp hma)] at h
    exact absurd (hc.target b y hy).1 (h ▸ ha).not_ge
  · rwa [renamed_of_not_mem (not_exists.mp hma), renamed_of_not_mem (not_exists.mp hmb)] at h

/-- A valuation of the variables by what they mean after renaming. -/
def renew (copies : List (Var × Var)) (θ : Valuation) : Valuation := fun v =>
  (θ v).subst fun r => .var (renamed copies r)

variable {θ : Valuation}

theorem Extends.renew_copy (hθ : c.store.Reading θ) (h : (q, w) ∈ c.copies) :
    renew c.copies θ w = renew c.copies θ q := by
  obtain ⟨_, hfree, hroot⟩ := hc.source q w h
  obtain ⟨hle, hlt⟩ := hc.target q w h
  have hnew : renamed c.copies w = w := renamed_of_not_mem fun x hx =>
    absurd hle (hc.source_lt hx).not_ge
  have hw : θ w = .var w := by
    rw [hθ.free w (hc.kind_new hle hlt), hc.root, (Forest.root_of_size_le hle).1]
  have hq : θ q = .var q := by rw [(hc.reading hθ).free q hfree, hroot]
  rw [renew, hw, renew, hq, Meaning.subst, Meaning.subst, hnew, hc.renamed_eq h]

theorem Extends.renew_eq (hs : s.Formed) (hg : s.Grounded) (hu : s.aliases.Usable)
    (hθ : c.store.Reading θ) (hv : v < c.store.size) (hclear : ∀ q ∈ qs, ¬ s.Reaches v q) :
    renew c.copies θ v = θ v := by
  have hu' : c.store.aliases.Usable := by rw [hc.aliases]; exact hu
  have hsolved := hθ.solvedBy_subst (hc.formed hs) hu'
    (σ := fun r => .var (renamed c.copies r)) fun _ => trivial
  refine hθ.eq_of_reaches hsolved (hc.grounded hg) (hc.formed hs) hu' hv fun r hr hfree => ?_
  have hroot : s.root r = r := by rw [← hc.root]; exact hr.root_eq hc.forest
  have hkept : renamed c.copies r = r := renamed_of_not_mem fun w hw =>
    hclear r (hc.source r w hw).1 (hc.reaches.mp hr)
  rw [hθ.free r hfree, hc.root, hroot, Meaning.subst, hkept]

end

/-- A copy leads to none of the variables that are copied. -/
theorem Copied.clear (h : Copied s qs c.copies t u) (hc : Extends s qs rank c) (hs : s.Formed)
    (hq : ∀ q ∈ qs, s.kind q = .free)
    (hext : ∀ fields v, s.Leads (.record fields (some v)) t →
      s.IsRow v ∨ ∀ q ∈ qs, ¬ s.Reaches v q) (ht : t.Fits s.size) :
    u.Over fun v => v < c.store.size ∧ ∀ q ∈ qs, ¬ s.Reaches v q := by
  have hold : ∀ {v}, v < s.size → v < c.store.size := fun hv => hv.trans_le hc.size_le
  refine h.over hs (fun q w hw => ?_) (fun v _ hv hk hn => ⟨hold hv, fun q hmem hr => ?_⟩)
    (fun v hv hk => ⟨hold hv, fun q hmem hr => ?_⟩)
    (fun fields v hl hv => (hext fields v hl).imp_right fun hclear => ⟨hold hv, hclear⟩) ht
  · obtain ⟨hle, hlt⟩ := hc.target q w hw
    refine ⟨hlt, fun q' hmem hr => ?_⟩
    obtain ⟨hroot, hcon⟩ := Forest.root_of_size_le hle
    obtain rfl := hr.eq_root (by rw [hroot, kind_eq_poisoned.mpr hcon]; simp)
    have := hq _ hmem
    rw [hroot, kind_eq_poisoned.mpr hcon] at this
    cases this
  · obtain rfl := hr.eq_root (by rw [kind_root hs.forest, hk]; simp)
    exact hn hmem
  · obtain rfl := hr.eq_root (by rw [kind_root hs.forest, hk]; simp)
    have := hq _ hmem
    rw [kind_root hs.forest, hk] at this
    cases this

theorem Extends.denotes (hc : Extends s qs rank c) (hs : s.Formed) (hg : s.Grounded)
    (hu : s.aliases.Usable) (hθ : c.store.Reading θ) (ht : t.Fits s.size)
    (hsame : Same s.aliases (renew c.copies θ) t u)
    (hclear : u.Over fun v => v < c.store.size ∧ ∀ q ∈ qs, ¬ s.Reaches v q) {m : Meaning}
    (hm : Denotes s.aliases θ t m) :
    Denotes s.aliases θ u (m.subst fun r => .var (renamed c.copies r)) := by
  obtain ⟨m', htm', hum'⟩ := hsame
  have hm' : Denotes s.aliases (renew c.copies θ) t (m.subst fun r => .var (renamed c.copies r)) :=
    hm.subst hu (σ := fun r => .var (renamed c.copies r)) (fun _ => trivial)
      (Ty.Over.mono ht fun v _ => ⟨hθ.tidy v, rfl⟩)
  rw [← htm'.unique hm']
  exact hum'.congr hu (Ty.Over.mono hclear fun v hv =>
    (hc.renew_eq hs hg hu hθ hv.1 hv.2).symm)

end Copying

namespace Store

open Copying

variable {s : Store}

/-- Between the stores `s` and `s'`, the function `ρ` gives to each quantifier that `t` leads to a
variable of its own, which is new and has the given rank, and keeps all that is no quantifier. -/
structure Renames (s s' : Store) (quantifiers : List Var) (rank : Rank) (t : Ty)
    (ρ : Var → Var) : Prop where
  new : ∀ q ∈ quantifiers, (∃ v ∈ t.vars, s.Reaches v (s.root q)) →
    s.size ≤ ρ (s.root q) ∧ ρ (s.root q) < s'.size ∧ s'.root (ρ (s.root q)) = ρ (s.root q) ∧
      ∃ hint, s'.content (ρ (s.root q)) = .unbound rank hint
  injective : ∀ v w, v < s.size → w < s.size → ρ v = ρ w → v = w
  shared : ∀ v, (∀ q ∈ quantifiers, s.root q ≠ v) → ρ v = v

variable {quantifiers : List Var} {t : Ty}

theorem renames_of_extends {rank : Rank} {c : Copying}
    (hc : Extends s (quantifiers.map s.root) rank c)
    (hcovers : ∀ q ∈ quantifiers, (∃ v ∈ t.vars, s.Reaches v (s.root q)) →
      ∃ w, (s.root q, w) ∈ c.copies) : s.Renames c.store quantifiers rank t (renamed c.copies) where
  new q hq hr := by
    obtain ⟨w, hw⟩ := hcovers q hq hr
    obtain ⟨hle, hlt⟩ := hc.target _ w hw
    rw [hc.renamed_eq hw, hc.root]
    exact ⟨hle, hlt, (Forest.root_of_size_le hle).1, hc.unbound w hle hlt⟩
  injective v w hv hw := hc.renamed_inj hv hw
  shared v hv := renamed_of_not_mem fun w hw => by
    obtain ⟨q, hq, heq⟩ := List.mem_map.mp (hc.source v w hw).1
    exact hv q hq heq

theorem Grounded.exists_renewed (hg : s.Grounded) (hs : s.Formed) (hu : s.aliases.Usable)
    (hfree : ∀ q ∈ quantifiers, s.kind q = .free) (ht : t.Fits s.size)
    (hrows : s.RowsOf quantifiers t) (rank : Rank) :
    ∃ u c, (EnoughFuel fun k => s.instantiate k quantifiers rank t = some (u, c.store)) ∧
      Extends s (quantifiers.map s.root) rank c ∧
      (∀ θ, c.store.Reading θ → Same s.aliases (renew c.copies θ) t u) ∧
      (u.Over fun v => v < c.store.size ∧ ∀ q ∈ quantifiers.map s.root, ¬ s.Reaches v q) ∧
      ∀ q ∈ quantifiers, (∃ v ∈ t.vars, s.Reaches v (s.root q)) →
        ∃ w, (s.root q, w) ∈ c.copies := by
  obtain ⟨u, c, hrun, hc, hcopied⟩ := hg.exists_instance hs quantifiers rank ht
  refine ⟨u, c, hrun, hc, ?_⟩
  rcases hcopied with ⟨rfl, rfl, _⟩ | hcopied
  · refine ⟨fun θ _ => ?_, Ty.Over.mono ht fun v hv => ?_, by simp⟩
    · obtain ⟨m, hm⟩ := hu.exists_denotes (renew c.copies θ) u
      exact ⟨m, hm, hm⟩
    · exact ⟨hv.trans_le hc.size_le, by simp⟩
  · have hroots : ∀ q ∈ quantifiers.map s.root, s.kind q = .free :=
      List.forall_mem_map.mpr fun q hq => by rw [kind_root hs.forest]; exact hfree q hq
    refine ⟨fun θ hθ => ?_, hcopied.clear hc hs hroots (fun fields v hl => ?_) ht, ?_⟩
    · exact hcopied.same hs hu ((hc.reading hθ).solvedBy_subst hs hu fun _ => trivial)
        (fun q w => hc.renew_copy hθ) hc.size_le (fun q w h => (hc.target q w h).2) hrows.argument ht
    · rw [List.forall_mem_map]
      exact hrows.extension fields v hl
    · rintro q hq ⟨v, hv, hr⟩
      have hmem := List.mem_map_of_mem (f := s.root) hq
      exact hcopied.covers hs.forest (fun q w h => (hc.source q w h).2.1) hv hr hmem (hroots _ hmem)

/-- Instantiation gives renamed copies, in a store without circles and for a scheme whose quantifiers
are unbound. With enough fuel, a name of the scheme gets a type that shows what the name's type
shows, with new variables of the given rank in place of the quantifiers, a different one for each.
None of the quantifiers can be reached from it, and all that was in the store before is as it was.
What is asked of the name's type is that it uses as rows only what is one. -/
theorem instantiate_renames {env : Environment} (henv : env.Ordered)
    (htable : env.aliasTable = .ok s.aliases) (hs : s.Formed) (hac : s.Acyclic) {scheme : Scheme}
    (hfree : ∀ q ∈ scheme.quantifiers, s.kind q = .free)
    (hheader : ∀ e ∈ scheme.header, e.2.Fits s.size) {name : String} {t : Ty}
    (hname : scheme.typeOf? name = some t) (hrows : s.RowsOf scheme.quantifiers t) (rank : Rank) :
    ∃ t' s' ρ, (EnoughFuel fun k => s.instantiate k scheme.quantifiers rank t = some (t', s')) ∧
      s.Renames s' scheme.quantifiers rank t ρ ∧
      (∃ m : Meaning, EnoughFuel fun k => s.snapshot k t = some m.named ∧
        s'.snapshot k t' = some (m.subst fun r => .var (ρ r)).named) ∧
      (∀ v ∈ t'.vars, ∀ q ∈ scheme.quantifiers, ¬ s'.Reaches v (s.root q)) ∧
      ∀ v, v < s.size → s'.root v = s.root v ∧ s'.content v = s.content v := by
  have hu := Environment.aliasTable_usable henv htable
  have hg := acyclic_iff.mp hac
  have ht := hheader _ (Assoc.mem_of_get? hname)
  obtain ⟨t', c, hrun, hc, hsame, hclear, hcovers⟩ := hg.exists_renewed hs hu hfree ht hrows rank
  have hu' : c.store.aliases.Usable := by rw [hc.aliases]; exact hu
  obtain ⟨θ, hθ⟩ := (hc.grounded hg).exists_reading (hc.formed hs) hu'
  obtain ⟨m, hm⟩ := hu.exists_denotes θ t
  have hm' := hc.denotes hs hg hu hθ ht (hsame θ hθ) hclear hm
  rw [← hc.aliases] at hm'
  have ht' : t'.Fits c.store.size := Ty.Over.mono hclear fun _ hv => hv.1
  refine ⟨t', c.store, renamed c.copies, hrun, renames_of_extends hc hcovers, ⟨m, ?_⟩, ?_,
    fun v hv => ⟨hc.root v, hc.content v hv⟩⟩
  · exact ((hc.reading hθ).snapshot hg hs hu ht hm).and
      (hθ.snapshot (hc.grounded hg) (hc.formed hs) hu' ht' hm')
  · intro v hv q hq hr
    exact (Ty.Over.mem hclear hv).2 _ (List.mem_map_of_mem hq) (hc.reaches.mp hr)

theorem rowsOf_blank {table : AliasTable} {n : Nat} (ht : t.Fits n) (quantifiers : List Var) :
    (blank table n).RowsOf quantifiers t := by
  obtain ⟨hs, hsize, hkind⟩ := blank_view table n
  have hrow : ∀ v, v < n → (blank table n).IsRow v := fun v hv => .free (by rw [hkind, if_pos hv])
  have hleads : ∀ u, (blank table n).Leads u t → u.Fits n := fun u hl => by
    rw [← hsize] at ht ⊢
    exact hl.fits (formed_blank table n) ht
  refine ⟨fun name args entry p v hl _ hp _ => hrow v ?_, fun fields v hl => .inl (hrow v ?_)⟩
  · exact Ty.Fits.lt (Ty.over_app.mp (hleads _ hl) _ (List.of_mem_zip hp).2) (by simp)
  · exact (Ty.over_record.mp (hleads _ hl)).2.2 v rfl

def boxScheme : Scheme := .closed "f" (.func (.app "Box" [.var 0])
  (.record [("x", .func (.var 0) (.var 2))] (some 1))) [0, 1]

/-- Two quantifiers are renamed, and the third variable is shared. -/
theorem instantiate_renames_boxes : ∃ t t' s' ρ, boxScheme.typeOf? "f" = some t ∧
    (EnoughFuel fun k =>
      (blank boxes.aliases 3).instantiate k boxScheme.quantifiers 7 t = some (t', s')) ∧
    (blank boxes.aliases 3).Renames s' boxScheme.quantifiers 7 t ρ ∧
    ∀ v ∈ t'.vars, ∀ q ∈ boxScheme.quantifiers, ¬ s'.Reaches v ((blank boxes.aliases 3).root q) := by
  obtain ⟨_, hsize, hkind⟩ := blank_view boxes.aliases 3
  have hfits : ∀ e ∈ boxScheme.header, e.2.Fits (blank boxes.aliases 3).size := by
    simp [hsize, boxScheme, Scheme.closed, Ty.Fits, Ty.over_func, Ty.over_app, Ty.over_record,
      Ty.over_var, Assoc.Sorted, Assoc.keys]
  have hfree : ∀ q ∈ boxScheme.quantifiers, (blank boxes.aliases 3).kind q = .free := by
    simp [boxScheme, Scheme.closed, sortVars, insertVar, hkind]
  obtain ⟨t', s', ρ, hrun, hren, _, hclear, _⟩ := instantiate_renames boxes_ordered boxes_aliasTable
    (formed_blank _ 3) (acyclic_blank _ 3) hfree hfits
    (rfl : boxScheme.typeOf? "f" = some _)
    (rowsOf_blank (by rw [← hsize]; exact hfits _ (List.mem_singleton.mpr rfl)) _) 7
  exact ⟨_, t', s', ρ, rfl, hrun, hren, hclear⟩

/-- An extension stands for a box, which is an alias for a record. The instance keeps the extension,
and with it the quantifier. -/
theorem instantiate_keeps_quantifier : ∃ s t' s' m,
    unify 12 (.var 1) (.app "Box" [.var 0]) (blank boxes.aliases 2) = .unified s ∧
    s.Acyclic ∧ s.kind 0 = .free ∧
    s.instantiate 12 [0] 0 (.record [("x", .int)] (some 1)) = some (t', s') ∧
    (∃ v ∈ t'.vars, s'.Reaches v 0) ∧ s'.snapshot 12 t' = some m ∧
    m.text = "\x7b x : Int, y : t0 \x7d" := by
  refine ⟨_, _, _, _, rfl, ?_, rfl, rfl, ⟨1, by simp [Copying.extend], ?_⟩, rfl, ?_⟩
  · -- only the extension is bound, to a type over the variable before it
    refine acyclic_iff.mpr (Subrelation.wf (fun {r v} he => ?_) Nat.lt_wfRel.wf)
    obtain ⟨t, hk, w, hw, rfl⟩ := he
    have hv : v < 2 := lt_of_kind (hk.trans_ne (by simp))
    match v with
    | 0 => cases hk
    | 1 =>
      cases hk
      obtain rfl : w = 0 := by simpa using hw
      exact Nat.zero_lt_one
  · exact .single ⟨_, rfl, 0, by simp, rfl⟩
  · decide +kernel

end Store
end TypeSolver
