import TypeSolver.Proofs.Instances
import TypeSolver.Proofs.Mirrors
import TypeSolver.Proofs.Names
import TypeSolver.Proofs.Walks

/-!
# TypeSolver.Proofs.Constructors

A data constructor has one type, whether a pattern or an expression names it. In a pattern, its
signature is read with a new variable for each parameter. In an expression, it is read once, with a
variable for each name that occurs in it, and each use of the constructor gets a copy of this type.
Both give different variables to different names, and two such readings of one signature differ by a
renaming (`Assigns.exists_renaming`); the copy of a type whose variables are as they were made is
the type renamed (`Copied.eq_renamed`). So the two types are the same up to the names of their
variables (`constructor_renames`).
-/

namespace TypeSolver

namespace Signature

variable {σ σ' : List (String × Ty)} {sig : Signature} {t t' : Ty}

theorem toTyList_congr {sigs : List Signature} (h : ∀ a ∈ sigs, a.toTy σ = a.toTy σ') :
    toTyList σ sigs = toTyList σ' sigs := by
  induction sigs with
  | nil => rfl
  | cons a sigs ih =>
    rw [toTyList, toTyList, h a List.mem_cons_self, ih fun b hb => h b (List.mem_cons_of_mem a hb)]

theorem toTyFields_congr {fields : List (String × Signature)}
    (h : ∀ f ∈ fields, f.2.toTy σ = f.2.toTy σ') : toTyFields σ fields = toTyFields σ' fields := by
  induction fields with
  | nil => rfl
  | cons f fields ih =>
    rw [toTyFields, toTyFields, h f List.mem_cons_self,
      ih fun g hg => h g (List.mem_cons_of_mem f hg)]

theorem toTy_congr (h : ∀ x ∈ sig.freeVars, Assoc.get? σ x = Assoc.get? σ' x) :
    sig.toTy σ = sig.toTy σ' := by
  induction sig with
  | var name => rw [toTy, toTy, h name (by simp)]
  | con name args ih =>
    rw [toTy, toTy,
      toTyList_congr fun a ha => ih a ha fun x hx => h x (mem_freeVars_con.mpr ⟨a, ha, hx⟩)]
  | func arg ret iha ihr =>
    rw [toTy, toTy, iha fun x hx => h x (mem_freeVars_func.mpr (.inl hx)),
      ihr fun x hx => h x (mem_freeVars_func.mpr (.inr hx))]
  | record fields ext ih =>
    rw [toTy, toTy,
      toTyFields_congr fun f hf => ih f hf fun x hx => h x (mem_freeVars_record.mpr (.inl ⟨f, hf, hx⟩))]
    cases ext with
    | none => rfl
    | some name => simp only [h name (mem_freeVars_record.mpr (.inr rfl))]

/-- The types chosen for `names`, and for no others, are the variables that `f` gives, a different
one for each name. -/
structure Assigns (σ : List (String × Ty)) (names : List String) (f : String → Var) : Prop where
  get : ∀ x ∈ names, Assoc.get? σ x = some (.var (f x))
  only : ∀ x t, Assoc.get? σ x = some t → x ∈ names
  injOn : Set.InjOn f {x | x ∈ names}

variable {names names' : List String} {f g : String → Var}

theorem Assigns.congr (h : Assigns σ names f) (hnames : ∀ x, x ∈ names ↔ x ∈ names') :
    Assigns σ names' f where
  get x hx := h.get x ((hnames x).mpr hx)
  only x t ht := (hnames x).mp (h.only x t ht)
  injOn x hx y hy := h.injOn ((hnames x).mpr hx) ((hnames y).mpr hy)

theorem exists_assigns {vars : List Var} (hlen : vars.length = names.length) (hvars : vars.Nodup) :
    ∃ f, Assigns (assignment names vars) names f ∧ ∀ x ∈ names, f x ∈ vars := by
  have hex : ∀ x, ∃ v, x ∈ names →
      Assoc.get? (assignment names vars) x = some (.var v) ∧ (x, v) ∈ names.zip vars := by
    intro x
    by_cases hx : x ∈ names
    · obtain ⟨t, ht⟩ := Generate.exists_assignment hlen hx
      obtain ⟨v, rfl, hv⟩ := Generate.mem_of_assignment ht
      exact ⟨v, fun _ => ⟨ht, hv⟩⟩
    · exact ⟨0, fun hx' => absurd hx' hx⟩
  choose f hf using hex
  refine ⟨f, ⟨fun x hx => (hf x hx).1, fun x t ht => ?_, fun x hx y hy heq => ?_⟩,
    fun x hx => (List.of_mem_zip (hf x hx).2).2⟩
  · obtain ⟨v, _, hv⟩ := Generate.mem_of_assignment ht
    exact (List.of_mem_zip hv).1
  · have hkeys : ((names.zip vars).map Prod.snd).Nodup := by
      rw [List.map_snd_zip hlen.le]
      exact hvars
    have hsame := List.inj_on_of_nodup_map hkeys (hf x hx).2 (hf y hy).2 heq
    exact congrArg Prod.fst hsame

theorem Assigns.renamed {ρ : Var → Var} (h : Assigns σ names f)
    (hρ : Set.InjOn ρ {v | ∃ x ∈ names, f x = v}) :
    Assigns (Assoc.mapValues (Ty.renamed ρ) σ) names (ρ ∘ f) where
  get x hx := by rw [Assoc.get?_mapValues, h.get x hx, Option.map_some, Ty.renamed]; rfl
  only x t ht := by
    rw [Assoc.get?_mapValues] at ht
    obtain ⟨u, hu, _⟩ := Option.map_eq_some_iff.mp ht
    exact h.only x u hu
  injOn x hx y hy heq := h.injOn hx hy (hρ ⟨x, hx, rfl⟩ ⟨y, hy, rfl⟩ heq)

theorem Assigns.mem_vars (h : Assigns σ names f) (ht : sig.toTy σ = .ok t) {v : Var}
    (hv : v ∈ t.vars) : ∃ x ∈ names, f x = v := by
  obtain ⟨x, u, hu, hv⟩ := mem_vars_toTy ht hv
  have hx := h.only x u hu
  rw [h.get x hx] at hu
  cases hu
  exact ⟨x, hx, (Ty.mem_vars_var.mp hv).symm⟩

theorem Assigns.exists_renaming (h : Assigns σ sig.freeVars f) (h' : Assigns σ' sig.freeVars g)
    (ht : sig.toTy σ = .ok t) (ht' : sig.toTy σ' = .ok t') :
    ∃ ρ : Var → Var, Set.BijOn ρ {v | v ∈ t.vars} {v | v ∈ t'.vars} ∧ t' = t.renamed ρ := by
  let ρ : Var → Var := fun v => g (Function.invFunOn f {x | x ∈ sig.freeVars} v)
  have hρ : ∀ x ∈ sig.freeVars, ρ (f x) = g x := fun x hx =>
    congrArg g (h.injOn.leftInvOn_invFunOn hx)
  have hread : sig.toTy σ' = sig.toTy (Assoc.mapValues (Ty.renamed ρ) σ) := by
    refine toTy_congr fun x hx => ?_
    rw [h'.get x hx, Assoc.get?_mapValues, h.get x hx, Option.map_some, Ty.renamed, hρ x hx]
  rw [toTy_renamed, ht, ht'] at hread
  cases hread
  refine ⟨ρ, ⟨fun v hv => Ty.mem_vars_renamed.mpr ⟨v, hv, rfl⟩, fun v hv w hw heq => ?_,
    fun w hw => Ty.mem_vars_renamed.mp hw⟩, rfl⟩
  obtain ⟨x, hx, rfl⟩ := h.mem_vars ht hv
  obtain ⟨y, hy, rfl⟩ := h.mem_vars ht hw
  rw [hρ x hx, hρ y hy] at heq
  rw [h'.injOn hx hy heq]

end Signature

namespace Store

variable {s : Store} {v : Var} {k : Rank}

theorem Made.root (h : s.Made v k) : s.root v = v := by
  obtain ⟨hint, hv⟩ := h
  have hpath : Path s.slots 0 v v := .here fun w hw => by rw [hv] at hw; cases hw
  exact hpath.root_eq

theorem Made.free (h : s.Made v k) : s.kind v = .free := by
  have hroot := h.root
  obtain ⟨hint, hv⟩ := h
  exact kind_eq_free.mpr ⟨k, hint, by rw [content, hroot, hv]⟩

theorem Made.lt (h : s.Made v k) : v < s.size := lt_of_kind (by rw [h.free]; simp)

theorem freshNamed_range (rank : Rank) (names : List String) (s : Store) :
    (s.freshNamed rank names).1 = List.range' s.size names.length ∧
      (s.freshNamed rank names).2.size = s.size + names.length := by
  induction names generalizing s with
  | nil => exact ⟨rfl, rfl⟩
  | cons name names ih =>
    obtain ⟨hvars, hsize⟩ := ih (s.fresh rank (some name)).2
    rw [fresh_size] at hvars hsize
    refine ⟨?_, ?_⟩
    · show s.size :: ((s.fresh rank (some name)).2.freshNamed rank names).1 = _
      rw [hvars, List.length_cons, List.range'_succ]
    · show ((s.fresh rank (some name)).2.freshNamed rank names).2.size = _
      rw [hsize, List.length_cons]
      omega

theorem Forest.freshNamed (h : s.Forest) (rank : Rank) (names : List String) :
    (s.freshNamed rank names).2.Forest := by
  induction names generalizing s with
  | nil => exact h
  | cons name names ih => exact ih (fresh_view h rank (some name)).1

end Store

namespace Copying

variable {s : Store} {qs : List Var} {copies : List (Var × Var)} {t u : Ty}

theorem Copied.eq_renamed (h : Copied s qs copies t u)
    (hcopies : ∀ q w, (q, w) ∈ copies → renamed copies q = w)
    (hvars : ∀ v ∈ t.vars, s.root v = v ∧ s.kind v = .free ∧ v ∈ qs) :
    u = t.renamed (renamed copies) := by
  induction h with
  | @copy v w h =>
    rw [(hvars v (by simp)).1] at h
    rw [Ty.renamed, hcopies v w h]
  | @bound v t u hk _ _ => cases hk.symm.trans (hvars v (by simp)).2.1
  | @free v _ hq =>
    rw [(hvars v (by simp)).1] at hq
    exact absurd (hvars v (by simp)).2.2 hq
  | @poisoned v hk => cases hk.symm.trans (hvars v (by simp)).2.1
  | func _ _ iha ihr =>
    rw [Ty.renamed, ← iha fun v hv => hvars v (by simp [hv]), ← ihr fun v hv => hvars v (by simp [hv])]
  | @app name args ts hlen _ ih =>
    have hts : List.Forall₂ (fun t a => t = Ty.renamed (renamed copies) a) ts args := by
      refine List.forall₂_iff_zip.mpr ⟨hlen.symm, fun {t a} hp => ?_⟩
      have hp' : (a, t) ∈ args.zip ts := by
        rw [← List.zip_swap]
        exact List.mem_map.mpr ⟨(t, a), hp, rfl⟩
      exact ih a t hp' fun v hv => hvars v (Ty.mem_vars_app.mpr ⟨a, (List.of_mem_zip hp').1, hv⟩)
    rw [← List.forall₂_map_right_iff, List.forall₂_eq_eq_eq] at hts
    rw [Ty.renamed_app, hts]
  | @closed fields fs hk _ ih =>
    have hfs : fs = Assoc.mapValues (Ty.renamed (renamed copies)) fields :=
      Assoc.related_mapValues_iff.mp (Assoc.related_of_zip hk fun k t u hp => ih k t u hp fun v hv =>
        hvars v (Ty.mem_vars_record.mpr (.inl ⟨(k, t), (List.of_mem_zip hp).1, hv⟩)))
    rw [Ty.renamed_record, ← hfs, Option.map_none]
  | @opened fields fs v u hk _ _ ih ihv =>
    have hfs : fs = Assoc.mapValues (Ty.renamed (renamed copies)) fields :=
      Assoc.related_mapValues_iff.mp (Assoc.related_of_zip hk fun k t u hp => ih k t u hp fun v hv =>
        hvars v (Ty.mem_vars_record.mpr (.inl ⟨(k, t), (List.of_mem_zip hp).1, hv⟩)))
    have hv : u = .var (renamed copies v) := ihv fun w hw => hvars w (by
      rw [Ty.mem_vars_var.mp hw]
      exact Ty.mem_vars_record.mpr (.inr rfl))
    rw [Ty.renamed_record, ← hfs, hv, extend, Option.map_some]

end Copying

open Copying Store in
theorem Store.Forest.exists_renamed_instance {s : Store} (h : s.Forest) {qs : List Var} {k : Rank}
    (hmade : ∀ q ∈ qs, s.Made q k) {t : Ty} (ht : ∀ v ∈ t.vars, v ∈ qs) (rank : Rank) :
    ∃ s' ρ, (EnoughFuel fun n => s.instantiate n qs rank t = some (t.renamed ρ, s')) ∧
      (∀ v ∈ t.vars, s.size ≤ ρ v ∧ ρ v < s'.size) ∧ Set.InjOn ρ {v | v < s.size} := by
  have hcopyable : Copyable s (qs.map s.root) rank t := copyable_of_vars fun v hv =>
    copyable_var h (hmade v (ht v hv)).lt fun u hu => by cases hu.symm.trans (hmade v (ht v hv)).free
  have hquantified : ∀ v ∈ t.vars, v ∈ qs.map s.root := fun v hv =>
    List.mem_map.mpr ⟨v, ht v hv, (hmade v (ht v hv)).root⟩
  have hclosed : s.Closed (· ∈ qs) :=
    ⟨fun v hv => (hmade v hv).lt, fun v u hv hu => by cases hu.symm.trans (hmade v hv).free⟩
  obtain ⟨u, c, hrun, hc, ⟨rfl, rfl, _⟩ | hcopied⟩ :=
    exists_instance_of_copyable h hclosed ht hcopyable
  · have hnone : ∀ v, v ∉ u.vars := fun v hv => absurd (ht v hv) List.not_mem_nil
    refine ⟨c.store, id, ?_, fun v hv => absurd hv (hnone v), fun v _ w _ heq => heq⟩
    rwa [Ty.renamed_eq_self fun v hv => absurd hv (hnone v)]
  · have hu := hcopied.eq_renamed (fun q w hw => hc.renamed_eq hw) fun v hv =>
      ⟨(hmade v (ht v hv)).root, (hmade v (ht v hv)).free, hquantified v hv⟩
    rw [hu] at hrun
    refine ⟨c.store, renamed c.copies, hrun, fun v hv => ?_, fun v hv w hw => hc.renamed_inj hv hw⟩
    obtain ⟨w, hw⟩ := hcopied.covers h (fun q w hw => (hc.source q w hw).2.1) hv
      (show s.Reaches v v by rw [Reaches, (hmade v (ht v hv)).root]) (hquantified v hv)
      (hmade v (ht v hv)).free
    rw [hc.renamed_eq hw]
    exact hc.target v w hw

namespace Environment

variable {env : Environment} {ctx ctx' : Context} {s s' : Store} {name : String}

variable {sig : Signature} {vs : List (String × Signature)} {c : Constructor}

theorem bindValues_keeps (h : bindValues vs ctx s = (.ok ctx', s')) :
    s.Continues s' ∧ (s.Forest → s'.Forest) ∧
      ∀ name ∉ Assoc.keys vs, Assoc.get? ctx' name = Assoc.get? ctx name := by
  induction vs generalizing ctx s with
  | nil => cases h; exact ⟨.refl _, id, fun _ _ => rfl⟩
  | cons e vs ih =>
    rw [bindValues] at h
    split at h
    · cases h
    · rename_i scheme s1 hscheme
      obtain ⟨hcont, hforest, hget⟩ := ih h
      obtain ⟨_, rfl, _, rfl⟩ := closedScheme_eq_ok hscheme
      refine ⟨(Store.freshNamed_made 0 _ s).1.trans hcont, fun hf => hforest (hf.freshNamed 0 _),
        fun name hname => ?_⟩
      obtain ⟨hne, hrest⟩ := not_or.mp (List.mem_cons.not.mp hname)
      rw [hget name hrest, Assoc.get?_insert, if_neg hne]

/-- What a signature of the environment has in the initial scope: it was read with new variables, and
these are as they were made. -/
structure Introduces (sig : Signature) (ctx : Context) (s : Store) (name : String) (t : Ty)
    (vars : List Var) : Prop where
  scheme : Assoc.get? ctx name = some (.closed name t vars)
  type : sig.toTy (assignment sig.freeVars vars) = .ok t
  length : vars.length = sig.freeVars.length
  nodup : vars.Nodup
  made : ∀ v ∈ vars, s.Made v 0

theorem bindValues_introduces (hvs : Assoc.Sorted vs) (h : bindValues vs ctx s = (.ok ctx', s'))
    (hsig : Assoc.get? vs name = some sig) : ∃ t vars, Introduces sig ctx' s' name t vars := by
  induction vs generalizing ctx s with
  | nil => cases hsig
  | cons e vs ih =>
    obtain ⟨hfirst, hsorted⟩ := Assoc.sorted_cons.mp hvs
    rw [bindValues] at h
    split at h
    · cases h
    · rename_i scheme s1 hscheme
      rw [Assoc.get?] at hsig
      split at hsig
      · rename_i heq
        cases hsig
        subst heq
        obtain ⟨t, rfl, ht, rfl⟩ := closedScheme_eq_ok hscheme
        obtain ⟨_, hlen, hmade⟩ := Store.freshNamed_made 0 e.2.freeVars s
        obtain ⟨hcont, _, hget⟩ := bindValues_keeps h
        refine ⟨t, _, ?_, ht, hlen, ?_, fun v hv => (hmade v hv).continues hcont⟩
        · -- no later signature has this name
          rw [hget e.1 fun hmem => absurd (hfirst e.1 hmem) (lt_irrefl e.1), Assoc.get?_insert,
            if_pos rfl]
        · rw [(Store.freshNamed_range 0 e.2.freeVars s).1]
          exact List.nodup_range'
      · exact ih hsorted h hsig

theorem initialContext_introduces (hsorted : Assoc.Sorted env.constructors)
    (h : env.initialContext s = (.ok ctx, s')) (hc : Assoc.get? env.constructors name = some c)
    (hvalue : name ∉ Assoc.keys env.values) :
    (s.Forest → s'.Forest) ∧ (∀ x ∈ c.signature.freeVars, x ∈ c.params) ∧
      ∃ t vars, Introduces c.signature ctx s' name t vars := by
  rw [initialContext] at h
  split at h
  · cases h
  · rename_i ctx1 s1 hctors
    obtain ⟨hvalues, hscoped⟩ := bindConstructors_eq_ok hctors
    have hsig : Assoc.get? (Assoc.mapValues Constructor.signature env.constructors) name =
        some c.signature := by rw [Assoc.get?_mapValues, hc, Option.map_some]
    obtain ⟨t, vars, hin⟩ :=
      bindValues_introduces (Assoc.sorted_mapValues.mpr hsorted) hvalues hsig
    obtain ⟨_, hforest, _⟩ := bindValues_keeps hvalues
    obtain ⟨hcont, hforest', hget⟩ := bindValues_keeps h
    exact ⟨hforest' ∘ hforest, hscoped (name, c) (Assoc.mem_of_get? hc), t, vars,
      (hget name hvalue).trans hin.scheme, hin.type, hin.length, hin.nodup,
      fun v hv => (hin.made v hv).continues hcont⟩

theorem instantiateConstructor_eq_ok (hc : Assoc.get? env.constructors name = some c)
    (hparams : ∀ x ∈ c.signature.freeVars, x ∈ c.params) (rank : Rank) (span : Span) (s : Store) :
    ∃ args result σ f, env.instantiateConstructor name rank span s =
        (.ok (args, result), (s.freshNamed rank c.params).2) ∧
      c.signature.toTy σ = .ok (.curried args result) ∧ Signature.Assigns σ c.signature.freeVars f ∧
      ∀ x ∈ c.signature.freeVars, s.size ≤ f x ∧ f x < (s.freshNamed rank c.params).2.size := by
  obtain ⟨hvars, hsize⟩ := Store.freshNamed_range rank c.params s
  have hlen := Store.freshNamed_length rank c.params s
  obtain ⟨f, hf, hmem⟩ := Signature.exists_assigns hlen (by rw [hvars]; exact List.nodup_range')
  have hiff : ∀ x, x ∈ c.params ↔ x ∈ c.signature.freeVars := fun x =>
    ⟨fun hx => Signature.mem_freeVars_curried.mpr (.inr (by simp [Constructor.resultSignature, hx])),
      hparams x⟩
  have hargs : ∃ ts, Signature.toTyList (assignment c.params (s.freshNamed rank c.params).1) c.args =
      .ok ts := by
    obtain ⟨ts, hts⟩ := exists_forall₂ fun a ha => Signature.exists_toTy fun x hx =>
      ⟨f x, hf.get x (hparams x (Signature.mem_freeVars_curried.mpr (.inl ⟨a, ha, hx⟩)))⟩
    exact ⟨ts, Signature.toTyList_ok.mpr hts⟩
  obtain ⟨args, hargs⟩ := hargs
  have hresult : c.resultSignature.toTy (assignment c.params (s.freshNamed rank c.params).1) =
      .ok (.app c.result (c.params.filterMap
        (Assoc.get? (assignment c.params (s.freshNamed rank c.params).1)))) := by
    rw [Constructor.resultSignature, Signature.toTy,
      Generate.toTyList_vars fun x hx => ⟨_, hf.get x hx⟩]
  refine ⟨args, _, _, f, by simp only [instantiateConstructor, hc, hargs],
    Generate.toTy_curried hargs hresult, hf.congr hiff, fun x hx => ?_⟩
  have hx := hmem x (hparams x hx)
  rw [hvars, List.mem_range'_1] at hx
  rwa [hsize]

/-- A constructor has one type in patterns and in expressions. Take an environment that is accepted
and a constructor in it that no value hides; it has a scheme in the initial scope, whose variables
are as they were made. Wherever a pattern names it, new types for its arguments and its result are
found. Wherever an expression names it, in a store in which the variables of the scheme are still as
they were made, the scheme is instantiated, and the type it gets is the one of the pattern with the
new variables of the one renamed to those of the other, one to one. -/
theorem constructor_renames (hsorted : Assoc.Sorted env.constructors) {s0 s1 : Store}
    (h : env.initialContext s0 = (.ok ctx, s1)) {c : Constructor}
    (hc : Assoc.get? env.constructors name = some c) (hvalue : name ∉ Assoc.keys env.values) :
    ∃ scheme t, Assoc.get? ctx name = some scheme ∧ scheme.typeOf? name = some t ∧
      (s0.Forest → s1.Forest) ∧ (∀ q ∈ scheme.quantifiers, s1.Made q 0) ∧
      ∀ (s : Store) (rank : Rank) (span : Span), ∃ args result s',
        env.instantiateConstructor name rank span s = (.ok (args, result), s') ∧
        (∀ v ∈ (Ty.curried args result).vars, s.size ≤ v ∧ v < s'.size) ∧
        ∀ (r : Store) (rank' : Rank), r.Forest → (∀ q ∈ scheme.quantifiers, r.Made q 0) →
          ∃ u r', (EnoughFuel fun k =>
              r.instantiate k scheme.quantifiers rank' t = some (u, r')) ∧
            (∀ v ∈ u.vars, r.size ≤ v ∧ v < r'.size) ∧
            ∃ ρ : Var → Var,
              Set.BijOn ρ {v | v ∈ (Ty.curried args result).vars} {v | v ∈ u.vars} ∧
              u = (Ty.curried args result).renamed ρ := by
  obtain ⟨hforest, hparams, t, vars, hin⟩ := initialContext_introduces hsorted h hc hvalue
  obtain ⟨g, hg, hgvars⟩ := Signature.exists_assigns hin.length hin.nodup
  refine ⟨_, t, hin.scheme, by simp [Scheme.typeOf?, Scheme.closed, Assoc.get?], hforest,
    fun q hq => hin.made q (mem_sortVars.mp hq), fun s rank span => ?_⟩
  obtain ⟨args, result, σ, f, hrun, hread, hf, hnew⟩ :=
    instantiateConstructor_eq_ok hc hparams rank span s
  refine ⟨args, result, _, hrun, fun v hv => ?_, fun r rank' hr hmade => ?_⟩
  · obtain ⟨x, hx, rfl⟩ := hf.mem_vars hread hv
    exact hnew x hx
  · have hquantified : ∀ v ∈ t.vars, v ∈ sortVars vars := fun v hv => by
      obtain ⟨x, hx, rfl⟩ := hg.mem_vars hin.type hv
      exact mem_sortVars.mpr (hgvars x hx)
    obtain ⟨r', γ, hinst, hfresh, hγ⟩ := hr.exists_renamed_instance hmade hquantified rank'
    have hassigns := hg.renamed (ρ := γ) <| by
      rintro _ ⟨x, hx, rfl⟩ _ ⟨y, hy, rfl⟩ heq
      exact hγ (hmade _ (mem_sortVars.mpr (hgvars x hx))).lt
        (hmade _ (mem_sortVars.mpr (hgvars y hy))).lt heq
    have hcopy : c.signature.toTy (Assoc.mapValues (Ty.renamed γ)
        (assignment c.signature.freeVars vars)) = .ok (t.renamed γ) := by
      rw [Signature.toTy_renamed, hin.type]
      rfl
    refine ⟨t.renamed γ, r', hinst, fun v hv => ?_, hf.exists_renaming hassigns hread hcopy⟩
    obtain ⟨w, hw, rfl⟩ := Ty.mem_vars_renamed.mp hv
    exact hfresh w hw

def openPairs : Environment where
  constructors := [("Both", ⟨"Pair", ["r", "a", "r"],
    [.record [("x", .var "a")] (some "r"), .func (.var "a") (.con "List" [.var "r"])]⟩)]
  values := [("nil", .con "List" [.var "a"])]

/-- The pattern has three new variables, of which two occur, and the expression has two. -/
theorem constructor_renames_openPairs : ∃ ctx s scheme t args result s' u r' ρ,
    openPairs.initialContext {} = (.ok ctx, s) ∧ Assoc.get? ctx "Both" = some scheme ∧
    scheme.typeOf? "Both" = some t ∧
    openPairs.instantiateConstructor "Both" 4 {} s = (.ok (args, result), s') ∧
    (EnoughFuel fun k => s.instantiate k scheme.quantifiers 2 t = some (u, r')) ∧
    Set.BijOn ρ {v | v ∈ (Ty.curried args result).vars} {v | v ∈ u.vars} ∧
    u = (Ty.curried args result).renamed ρ := by
  have hctx : openPairs.initialContext {} = (.ok _, _) := rfl
  have hboth : Assoc.get? openPairs.constructors "Both" = some _ := rfl
  obtain ⟨scheme, t, hget, htype, hforest, hmade, hpattern⟩ :=
    constructor_renames (by simp [openPairs, Assoc.Sorted, Assoc.keys]) hctx hboth (by decide)
  obtain ⟨args, result, s', hrun, _, hexpression⟩ :=
    hpattern (openPairs.initialContext {}).2 4 {}
  obtain ⟨u, r', hinst, _, ρ, hρ, hu⟩ :=
    hexpression _ 2 (hforest (Store.forest_empty [] true)) hmade
  exact ⟨_, _, scheme, t, args, result, s', u, r', ρ, rfl, hget, htype, hrun, hinst, hρ, hu⟩

end Environment
end TypeSolver
