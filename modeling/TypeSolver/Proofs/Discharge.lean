import TypeSolver.Proofs.Depths
import TypeSolver.Proofs.LeastRanks
import TypeSolver.Proofs.Moments
import TypeSolver.Proofs.Scopes

/-!
# TypeSolver.Proofs.Discharge

What discharging one demand does to the store, when no error is recorded. An equation unifies two
types; an instance is copied first, which adds variables of the rank of the solver. Either way no
class comes to lead deeper, what is new sinks to the rank of the solver, and classes that neither the
demand nor its scope leads to are left alone (`Discharges`). This holds of first-order stores, which
are refined, and of all stores if the unification keeps the tight guard.
-/

namespace TypeSolver

open Store Copying

namespace Store

variable {s s' : Store} {t u : Ty}

/-- Each variable behind the fields of a record that `t` leads to is a row. -/
def ExtensionRows (s : Store) (t : Ty) : Prop :=
  ∀ fields v, s.Leads (.record fields (some v)) t → s.IsRow v

theorem Leads.exists_reaches (h : s.Forest) {v : Var} (hl : s.Leads (.var v) t) :
    ∃ w ∈ t.vars, s.Reaches w (s.root v) := by
  induction hl with
  | refl => exact ⟨v, by simp, .refl⟩
  | @bound x t hk _ ih =>
    obtain ⟨w, hw, hr⟩ := ih
    exact ⟨x, by simp, .of_edge h ⟨t, hk, w, hw, rfl⟩ ((reaches_root h).mpr hr)⟩
  | arg _ ih => obtain ⟨w, hw, hr⟩ := ih; exact ⟨w, by simp [hw], hr⟩
  | ret _ ih => obtain ⟨w, hw, hr⟩ := ih; exact ⟨w, by simp [hw], hr⟩
  | app ha _ ih => obtain ⟨w, hw, hr⟩ := ih; exact ⟨w, Ty.mem_vars_app.mpr ⟨_, ha, hw⟩, hr⟩
  | field hf _ ih =>
    obtain ⟨w, hw, hr⟩ := ih
    exact ⟨w, Ty.mem_vars_record.mpr (.inl ⟨_, hf, hw⟩), hr⟩
  | ext _ ih =>
    obtain ⟨w, hw, hr⟩ := ih
    exact ⟨w, Ty.mem_vars_record.mpr (.inr (by rw [Ty.mem_vars_var.mp hw])), hr⟩

theorem Leads.firstOrder (hs : s.FirstOrder) (hl : s.Leads u t) (ht : t.FirstOrder s.aliases) :
    u.FirstOrder s.aliases := by
  induction hl with
  | refl => exact ht
  | bound hk _ ih => exact ih (hs.terms _ _ hk).1
  | arg _ ih => exact ih (Ty.FirstOrder.func_iff.mp ht).1
  | ret _ ih => exact ih (Ty.FirstOrder.func_iff.mp ht).2
  | app ha _ ih => exact ih ((Ty.FirstOrder.app_iff.mp ht).2 _ ha)
  | field => cases ht
  | ext => cases ht

theorem FirstOrder.extensionRows (hs : s.FirstOrder) (ht : t.FirstOrder s.aliases) :
    s.ExtensionRows t := by
  intro fields v hl
  cases hl.firstOrder hs ht

end Store

namespace Copying

variable {s : Store} {qs : List Var} {copies : List (Var × Var)} {t u : Ty}

theorem Copied.firstOrder (h : Copied s qs copies t u) (hs : s.FirstOrder)
    (ht : t.FirstOrder s.aliases) : u.FirstOrder s.aliases := by
  induction h with
  | copy => exact .var
  | bound hk _ ih => exact ih (hs.terms _ _ hk).1
  | free => exact .var
  | poisoned => exact .var
  | func _ _ iha ihr =>
    obtain ⟨ha, hr⟩ := Ty.FirstOrder.func_iff.mp ht
    exact .func (iha ha) (ihr hr)
  | app hlen _ ih =>
    obtain ⟨hn, hargs⟩ := Ty.FirstOrder.app_iff.mp ht
    refine .app hn fun b hb => ?_
    obtain ⟨a, ha, hab⟩ := exists_of_forall₂_right (forall₂_of_zip hlen ih) hb
    exact hab (hargs a ha)
  | closed => cases ht
  | opened => cases ht

theorem Copied.exists_source (h : Copied s qs copies t u) (hs : s.Formed) (hh : s.Healthy)
    (hrows : s.ExtensionRows t) (ht : t.Fits s.size) {x : Var} (hx : x ∈ u.vars) :
    (∃ q, (q, x) ∈ copies) ∨
      s.kind x = .free ∧ s.root x ∉ qs ∧ ∃ v ∈ t.vars, s.Reaches v (s.root x) := by
  refine (h.over (V := fun x => (∃ q, (q, x) ∈ copies) ∨
      s.kind x = .free ∧ s.root x ∉ qs ∧ ∃ v ∈ t.vars, s.Reaches v (s.root x)) hs
    (fun q w hw => ?_) (fun v hl _ hk hq => ?_) (fun v hv hk => ?_)
    (fun fields v hl _ => .inl (hrows fields v hl)) ht).mem hx
  · exact .inl ⟨q, hw⟩
  · exact .inr ⟨hk, hq, hl.exists_reaches hs.forest⟩
  · exact absurd hk (hh v hv)

variable {rank : Rank}

theorem Extends.spares {c : Copying} (hc : Extends s qs rank c) {q : Var} (hlt : q < s.size)
    (hq : s.root q = q) : Spares q s c.store :=
  ⟨(hc.root q).trans hq, hc.content q hlt, fun v hv => by rwa [hc.reaches]⟩

theorem Extends.eq_of_reaches {c : Copying} (hc : Extends s qs rank c) {v r : Var} (hv : s.size ≤ v)
    (hr : c.store.Reaches v r) : r = v := by
  rw [hc.reaches] at hr
  obtain ⟨hroot, hcon⟩ := Forest.root_of_size_le hv
  rw [← hroot]
  refine hr.eq_root fun t ht => ?_
  rw [hroot, kind_eq_bound, hcon] at ht
  cases ht

end Copying

namespace Solver

/-- Neither the demand nor a scheme in its scope leads to the root `q`, unless the scheme is
quantified over it. -/
structure Avoids (s : Store) (ctx : Context) (c : Constraint) (q : Var) : Prop where
  demand : ∀ v, c.Mentions v → ¬ s.Reaches v q
  schemes : ∀ e ∈ ctx, ∀ h ∈ e.2.header, ∀ v ∈ h.2.vars, s.Reaches v q → q ∈ e.2.quantifiers

/-- From `s` to `s'` a demand was discharged at the given rank. -/
structure Discharges (ctx : Context) (c : Constraint) (rank : Rank) (s s' : Store) : Prop where
  formed : s'.Formed
  size_le : s.size ≤ s'.size
  aliases : s'.aliases = s.aliases
  within : ∀ (Q : Var → Prop) (k : Rank) (v : Var),
    (∀ q, Q q → q < s.size ∧ s.root q = q ∧ Avoids s ctx c q) → v < s.size → s.Within Q k v →
    s'.Within Q k v
  new : ∀ v, s.size ≤ v → v < s'.size → s'.Within (fun _ => False) rank v
  spares : ∀ q, q < s.size → s.root q = q → Avoids s ctx c q → Spares q s s'

variable {fuel : Nat} {st st' : Solver} {ctx : Context} {span : Span}

variable {actual expected : Ty} {s s' : Store} {rank : Rank}

theorem runs_of_equate (h : st.equate fuel expected actual span = .done () st')
    (herr : st'.errors = []) :
    Runs .any fuel (.types expected actual) st.store (.unified st'.store) := by
  rcases equate_eq_done h with ⟨s, hrun, rfl⟩ | ⟨m, s, _, rfl⟩
  · exact runs_of_ran ⟨hrun, by simp⟩
  · exact absurd herr (report_errors_ne _ m span)

theorem Avoids.equal {q : Var} (h : Avoids s ctx (.equal expected actual span) q)
    (hfits : (Call.types expected actual).Fits s.size) :
    (Call.types expected actual).Over fun v => ¬ s.Reaches v q :=
  ⟨hfits.1.restrict fun v hv => h.demand v (.expected hv),
    hfits.2.restrict fun v hv => h.demand v (.actual hv)⟩

/-- From `s` to `s'` the type `ty` was made equal to an instance of `name`: the store `c` has the
copies for the copy `u'` of the type `u` that `scheme` gives to the name. -/
structure Instantiates (fuel : Nat) (ctx : Context) (name : String) (ty : Ty) (rank : Rank)
    (s s' : Store) (scheme : Scheme) (u u' : Ty) (c : Copying) : Prop where
  found : Assoc.get? ctx name = some scheme
  typeOf : scheme.typeOf? name = some u
  made : s.instantiate fuel scheme.quantifiers rank u = some (u', c.store)
  copies : Extends s (scheme.quantifiers.map s.root) rank c
  copied : scheme.quantifiers = [] ∧ u' = u ∧ c.store = s ∨
    Copied s (scheme.quantifiers.map s.root) c.copies u u'
  runs : Runs .any fuel (.types ty u') c.store (.unified s')
  source : (Call.types ty u).Fits s.size
  fits : (Call.types ty u').Fits c.store.size

theorem instantiates_of_equateInstance {name : String} {ty : Ty}
    (h : st.equateInstance fuel ctx name ty span = .done () st') (herr : st'.errors = [])
    (hs : st.store.Formed) (ht : ty.Fits st.store.size)
    (hctx : ∀ scheme, Assoc.get? ctx name = some scheme → ∀ e ∈ scheme.header,
      e.2.Fits st.store.size) :
    ∃ scheme u u' c,
      Instantiates fuel ctx name ty st.rank st.store st'.store scheme u u' c := by
  obtain ⟨scheme, u, u', s1, hscheme, hu, hinst, h⟩ := equateInstance_eq_done h
  have hufits := hctx scheme hscheme _ (Assoc.mem_of_get? hu)
  obtain ⟨c, rfl, hc, hcopied⟩ := Store.instance_copied hs.forest hs.contained hinst hufits.below
  have hu' : u'.Fits c.store.size := by
    rcases hcopied with ⟨_, rfl, _⟩ | hcopied
    · exact hufits.mono hc.size_le
    · exact hcopied.fits hs hc.size_le (fun q w h => (hc.target q w h).2) hufits
  exact ⟨scheme, u, u', c, hscheme, hu, hinst, hc, hcopied, runs_of_equate h herr,
    ⟨ht, hufits⟩, ht.mono hc.size_le, hu'⟩

namespace Instantiates

variable {name : String} {ty u u' : Ty} {rank : Rank} {s s' : Store} {scheme : Scheme} {c : Copying}

variable {q : Var}

variable (h : Instantiates fuel ctx name ty rank s s' scheme u u' c)

include h

theorem not_reaches (hs : s.Formed) (hh : s.Healthy) (hrows : s.ExtensionRows u) (hlt : q < s.size)
    (hq : s.root q = q) (havoid : Avoids s ctx (.instanceOf name ty span) q) {x : Var}
    (hx : x ∈ u'.vars) : ¬ s.Reaches x q := by
  intro hr
  have hvars := havoid.schemes _ (Assoc.mem_of_get? h.found) _ (Assoc.mem_of_get? h.typeOf)
  rcases h.copied with ⟨hnil, rfl, _⟩ | hcopied
  · have hmem := hvars x hx hr
    rw [hnil] at hmem
    cases hmem
  · rcases hcopied.exists_source hs hh hrows h.source.2 hx with
      ⟨q', hx⟩ | ⟨hfree, hnq, v, hv, hvx⟩
    · have hge := (h.copies.target q' x hx).1
      have heq := h.copies.eq_of_reaches hge (h.copies.reaches.mpr hr)
      exact absurd hlt (heq ▸ Nat.not_lt.mpr hge)
    · have hkr : s.kind (s.root x) = .free := by rw [kind_root hs.forest]; exact hfree
      obtain rfl := hr.eq_root (by simp [hkr])
      exact hnq (List.mem_map.mpr ⟨s.root x, hvars v hv hvx, hq⟩)

theorem avoids (hs : s.Formed) (hh : s.Healthy) (hrows : s.ExtensionRows u) (hlt : q < s.size)
    (hq : s.root q = q) (havoid : Avoids s ctx (.instanceOf name ty span) q) :
    (Call.types ty u').Over fun v => ¬ c.store.Reaches v q := by
  refine ⟨h.fits.1.restrict fun v hv => ?_, h.fits.2.restrict fun x hx => ?_⟩
  · rw [h.copies.reaches]; exact havoid.demand v (.instanceOf hv)
  · rw [h.copies.reaches]; exact h.not_reaches hs hh hrows hlt hq havoid hx

theorem spares (hs : s.WellFormed) (hh : s.Healthy) (hrows : s.ExtensionRows u) (hlt : q < s.size)
    (hq : s.root q = q) (havoid : Avoids s ctx (.instanceOf name ty span) q) : Spares q s s' := by
  have hcs : c.store.WellFormed :=
    ⟨h.copies.formed hs.toFormed, by rw [h.copies.aliases]; exact hs.usable⟩
  exact (h.copies.spares hlt hq).trans (h.runs.spares hcs h.fits q
    (hlt.trans_le h.copies.size_le) ((h.copies.root q).trans hq)
    (h.avoids hs.toFormed hh hrows hlt hq havoid))

end Instantiates

namespace Instantiates

variable {name : String} {ty u u' : Ty} {rank : Rank} {s s' : Store} {scheme : Scheme} {c : Copying}

theorem firstOrder (h : Instantiates fuel ctx name ty rank s s' scheme u u' c) (hs : s.FirstOrder)
    (ht : ty.FirstOrder s.aliases) (hu : u.FirstOrder s.aliases) :
    (Call.types ty u').FirstOrder c.store.aliases := by
  rw [h.copies.aliases]
  refine ⟨ht, ?_⟩
  rcases h.copied with ⟨_, rfl, _⟩ | hcopied
  · exact hu
  · exact hcopied.firstOrder hs hu

end Instantiates

theorem discharges_of_tight (h : Runs .tight fuel (.types expected actual) s (.unified s'))
    (hs : s.WellFormed) (hfits : (Call.types expected actual).Fits s.size)
    (hwithin : ∀ v, v ∈ expected.vars ∨ v ∈ actual.vars → s.Within (fun _ => False) rank v) :
    Discharges ctx (.equal expected actual span) rank s s' := by
  have hsteps : Steps .tight false s s' := h.after hs hfits
  refine ⟨(hsteps.wellFormed hs).toFormed, hsteps.size_le hs, hsteps.aliases_eq,
    fun Q k v hQ => ?_, fun v => h.within_new hs hfits hwithin, fun q hlt hq havoid => ?_⟩
  · refine h.within hs hfits (fun q hq => ⟨(hQ q hq).1, (hQ q hq).2.1⟩) fun w hw q hq => ?_
    exact (hQ q hq).2.2.demand w (hw.elim .expected .actual)
  · exact h.spares hs hfits q hlt hq (havoid.equal hfits)

namespace Instantiates

variable {name : String} {ty u u' : Ty} {rank : Rank} {s s' : Store} {scheme : Scheme} {c : Copying}

theorem within (h : Instantiates fuel ctx name ty rank s s' scheme u u' c) (hs : s.Formed)
    (hh : s.Healthy) (hrows : s.ExtensionRows u)
    (hu : ∀ v ∈ u.vars, s.Within (· ∈ scheme.quantifiers) rank v) {x : Var} (hx : x ∈ u'.vars) :
    c.store.Within (fun _ => False) rank x := by
  rcases h.copied with ⟨hnil, rfl, heq⟩ | hcopied
  · intro r j hr hj
    rw [heq] at hr hj
    refine (hu x hx r j hr hj).imp_left fun hmem => ?_
    rw [hnil] at hmem
    cases hmem
  · rcases hcopied.exists_source hs hh hrows h.source.2 hx with
      ⟨q, hx⟩ | ⟨hfree, hnq, v, hv, hvx⟩
    · obtain ⟨hge, hlt⟩ := h.copies.target q x hx
      obtain ⟨hint, hcon⟩ := h.copies.unbound x hge hlt
      exact within_of_rank? h.copies.forest (rank?_eq_some.mpr ⟨hint, hcon⟩) le_rfl
    · obtain ⟨j, hj⟩ := kind_eq_free_iff_rank?.mp hfree
      have hle := (hu v hv _ j hvx (by rw [rank?_root hs.forest]; exact hj)).resolve_left fun hq =>
        hnq (List.mem_map.mpr ⟨_, hq, hs.forest.root_root x⟩)
      have hlt : x < s.size := lt_of_kind (by rw [hfree]; simp)
      exact within_of_rank? h.copies.forest (by rw [rank?, h.copies.content x hlt]; exact hj) hle

theorem discharges_of_tight (h : Instantiates fuel ctx name ty rank s s' scheme u u' c)
    (hrun : Runs .tight fuel (.types ty u') c.store (.unified s')) (hs : s.WellFormed) (hh : s.Healthy)
    (hrows : s.ExtensionRows u) (ht : ∀ v ∈ ty.vars, s.Within (fun _ => False) rank v)
    (hu : ∀ v ∈ u.vars, s.Within (· ∈ scheme.quantifiers) rank v) :
    Discharges ctx (.instanceOf name ty span) rank s s' := by
  have hcs : c.store.WellFormed :=
    ⟨h.copies.formed hs.toFormed, by rw [h.copies.aliases]; exact hs.usable⟩
  have hsteps : Steps .tight false c.store s' := hrun.after hcs h.fits
  have hsize := hsteps.size_le hcs
  have hold : ∀ {Q : Var → Prop} {k : Rank} {v : Var}, v < s.size → s.Within Q k v →
      c.store.Within Q k v := by
    intro Q k v hv hw r j hr hj
    rw [h.copies.reaches] at hr
    refine hw r j hr ?_
    rwa [rank?, h.copies.content r (hr.lt hs.toFormed hv)] at hj
  have hnew : ∀ v, v ∈ ty.vars ∨ v ∈ u'.vars → c.store.Within (fun _ => False) rank v := by
    rintro v (hv | hv)
    · exact hold (h.source.1.lt hv) (ht v hv)
    · exact h.within hs.toFormed hh hrows hu hv
  refine ⟨(hsteps.wellFormed hcs).toFormed, h.copies.size_le.trans hsize,
    hsteps.aliases_eq.trans h.copies.aliases, fun Q k v hQ hv hw => ?_, fun v hv hlt => ?_,
    fun q hlt hq havoid => h.spares hs hh hrows hlt hq havoid⟩
  · refine hrun.within hcs h.fits (fun q hq => ?_) (fun w hw q hq => ?_)
      (hv.trans_le h.copies.size_le) (hold hv hw)
    · obtain ⟨hlt, hroot, _⟩ := hQ q hq
      exact ⟨hlt.trans_le h.copies.size_le, (h.copies.root q).trans hroot⟩
    · obtain ⟨hlt, hroot, havoid⟩ := hQ q hq
      have hover := h.avoids hs.toFormed hh hrows hlt hroot havoid
      exact hw.elim hover.1.mem hover.2.mem
  · rcases Nat.lt_or_ge v c.store.size with hlt' | hge
    · obtain ⟨hint, hcon⟩ := h.copies.unbound v hv hlt'
      exact hrun.within hcs h.fits (fun _ hq => hq.elim) (fun _ _ _ hq => hq.elim) hlt'
        (within_of_rank? h.copies.forest (rank?_eq_some.mpr ⟨hint, hcon⟩) le_rfl)
    · exact hrun.within_new hcs h.fits hnew hge hlt

end Instantiates
end Solver
end TypeSolver
