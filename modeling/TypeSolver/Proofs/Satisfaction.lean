import TypeSolver.Proofs.Compression
import TypeSolver.Proofs.Generalization

/-!
# TypeSolver.Proofs.Satisfaction

A program that gets types satisfies its constraint. In the last store of a run without errors, both
sides of each equation are shown alike, and what is demanded of an instance is shown as the type of
its scheme, with the quantifiers of the scheme replaced.

The reading of the last store solves every store before it, so what a step demanded still holds at
the end. As the quantifiers of a scheme in scope are left alone from then on, they still stand for
themselves, and what the scheme shares with its surroundings does not lead to them.
-/

namespace TypeSolver

open Store Copying

def FixedOutside (qs : List Var) (σ : Valuation) : Prop := ∀ v, v ∉ qs → σ v = .var v

variable {θ σ : Valuation} {m : Meaning} {s : Store} {t u : Ty}

theorem Meaning.subst_eq_self (h : ∀ r, m.Mentions r → σ r = .var r) : m.subst σ = m := by
  induction m with
  | var r => rw [subst]; exact h r .var
  | func a b iha ihb => rw [subst, iha fun r hr => h r (.arg hr), ihb fun r hr => h r (.ret hr)]
  | app name args ih =>
    have hargs : args.map (subst σ) = args.map id :=
      List.map_congr_left fun a ha => ih a ha fun r hr => h r (.app ha hr)
    rw [subst, hargs, List.map_id]
  | record fields ext ih =>
    have hfields : (fields.map fun f => (f.1, f.2.subst σ)) = fields.map id :=
      List.map_congr_left fun f hf => by rw [ih f hf fun r hr => h r (.field hf hr)]; rfl
    rw [subst, hfields, List.map_id]
    cases ext with
    | none => rfl
    | some r => rw [Option.map_some, h r .ext]; rfl
  | error => rw [subst]

theorem Copying.Copied.denotes {qs : List Var} {copies : List (Var × Var)}
    (h : Copied s qs copies t u) (hs : s.FirstOrder) (hθ : s.SolvedBy θ)
    (ht : t.FirstOrder s.aliases) (hfits : t.Fits s.size)
    (hcopy : ∀ q w, (q, w) ∈ copies → (θ q).subst σ = θ w)
    (hkeep : ∀ v, v < s.size → s.kind v = .free → s.root v ∉ qs → (θ v).subst σ = θ v)
    (hm : Denotes s.aliases θ t m) : Denotes s.aliases θ u (m.subst σ) := by
  induction h generalizing m with
  | @copy v w h =>
    rw [Denotes.var_iff.mp hm, ← hθ.root v, hcopy _ _ h]
    exact .var w
  | @bound v t u hk _ ih =>
    rw [Denotes.var_iff.mp hm]
    exact ih (hs.terms v t hk).1 (hs.fits v t hk) (hθ.bound v t hk)
  | @free v hk hq =>
    rw [Denotes.var_iff.mp hm, hkeep v (hfits.lt (by simp)) hk hq]
    exact .var v
  | @poisoned v hk => exact absurd hk (hs.healthy v (hfits.lt (by simp)))
  | func _ _ iha ihr =>
    obtain ⟨ha, hr⟩ := Ty.FirstOrder.func_iff.mp ht
    obtain ⟨hfa, hfr⟩ := Ty.over_func.mp hfits
    obtain ⟨ma, mr, rfl, hma, hmr⟩ := Denotes.func_iff.mp hm
    rw [Meaning.subst]
    exact Denotes.func_iff.mpr ⟨_, _, rfl, iha ha hfa hma, ihr hr hfr hmr⟩
  | @app name args ts hlen hcopied ih =>
    have happ : Copied s qs copies (.app name args) (.app name ts) := .app hlen hcopied
    obtain ⟨ms, rfl, hms⟩ := (Denotes.app_iff ht.expand_ne).mp hm
    rw [Meaning.subst]
    refine (Denotes.app_iff (happ.firstOrder hs ht).expand_ne).mpr ⟨_, rfl, ?_⟩
    rw [List.forall₂_map_right_iff]
    refine forall₂_of_forall₂ (forall₂_of_zip hlen ih) hms fun a ha b m hab hm => ?_
    exact hab ((Ty.FirstOrder.app_iff.mp ht).2 a ha) (Ty.over_app.mp hfits a ha) hm
  | closed => cases ht
  | opened => cases ht

namespace Copying

/-- The substitution that replaces each root that was copied by what its copy means. -/
def replacement (copies : List (Var × Var)) (θ : Valuation) : Valuation := fun r =>
  match Assoc.get? copies r with
  | some w => θ w
  | none => .var r

variable {s : Store} {qs : List Var} {rank : Rank} {c : Copying} {θ : Valuation}

theorem Extends.replacement_eq (hc : Extends s qs rank c) {q w : Var} (h : (q, w) ∈ c.copies) :
    replacement c.copies θ q = θ w := by
  rw [replacement]
  split
  · rename_i w' hw'
    rw [hc.functional q w w' h (Assoc.mem_of_get? hw')]
  · rename_i hnone
    exact absurd (List.mem_map_of_mem h) (Assoc.get?_eq_none_iff.mp hnone)

theorem Extends.fixedOutside (hc : Extends s qs rank c) :
    FixedOutside qs (replacement c.copies θ) := by
  intro v hv
  rw [replacement]
  split
  · rename_i w hw
    exact absurd (hc.source v w (Assoc.mem_of_get? hw)).1 hv
  · rfl

end Copying

theorem Solver.Instantiates.exists_subst {fuel : Nat} {ctx : Context} {name : String} {ty u' : Ty}
    {rank : Rank} {s' : Store} {scheme : Scheme} {c : Copying}
    (h : Instantiates fuel ctx name ty rank s s' scheme u u' c) (hs : s.FirstOrder)
    (hty : ty.FirstOrder s.aliases) (hu : u.FirstOrder s.aliases) (hθ : s'.SolvedBy θ)
    (hroot : ∀ q ∈ scheme.quantifiers, s.root q = q)
    (hself : ∀ q ∈ scheme.quantifiers, θ q = .var q)
    (hapart : ∀ q ∈ scheme.quantifiers, ∀ v, v < s.size → ¬ s.Reaches v q → ¬ (θ v).Mentions q) :
    ∃ m σ, FixedOutside scheme.quantifiers σ ∧ Denotes s.aliases θ u m ∧
      Denotes s.aliases θ ty (m.subst σ) := by
  have hcs := (refines_of_extends h.copies hs).firstOrder
  obtain ⟨hθc, mt, hmt, hu'⟩ := (h.runs.strict hcs (h.firstOrder hs hty hu) h.fits).sound
    hcs.toIntact h.fits _ rfl hcs.toIntact θ hθ
  have hθs := h.copies.solvedBy hθc
  rw [h.copies.aliases] at hmt hu'
  obtain ⟨m, hm⟩ := hs.usable.exists_denotes θ u
  rcases h.copied with ⟨hnil, rfl, _⟩ | hcopied
  · refine ⟨m, .var, fun v _ => rfl, hm, ?_⟩
    rw [Meaning.subst_eq_self fun r _ => rfl, hm.unique hu']
    exact hmt
  · have hmap : scheme.quantifiers.map s.root = scheme.quantifiers := by
      rw [List.map_congr_left (g := id) hroot, List.map_id]
    have hc := h.copies
    rw [hmap] at hcopied hc
    have hden := hcopied.denotes (σ := replacement c.copies θ) hs hθs hu h.source.2
      (fun q w hmem => ?_) (fun v hv hk hq => Meaning.subst_eq_self fun r hr => ?_) hm
    · refine ⟨m, replacement c.copies θ, hc.fixedOutside, hm, ?_⟩
      rw [hden.unique hu']
      exact hmt
    · rw [hself q (hc.source q w hmem).1, Meaning.subst, hc.replacement_eq hmem]
    · -- a class that is no quantifier leads to itself only, so it never came to mention one
      refine hc.fixedOutside r fun hrq => hapart r hrq v hv (fun hvr => hq ?_) hr
      rw [← hvr.eq_root (by rw [kind_root hs.forest, hk]; simp)]
      exact hrq

theorem Store.FirstOrder.shows (hs : s.FirstOrder) (hθ : s.Reading θ) (ht : t.Fits s.size)
    (hm : Denotes s.aliases θ t m) : EnoughFuel fun k => s.snapshot k t = some m.named :=
  hθ.snapshot hs.grounded hs.toFormed hs.usable ht hm

namespace Moment

variable {fuel : Nat} {m m' : Moment} {made : Var → Rank} {n : Nat} {ctx : Context}
  {ws : List Task} {span : Span}

theorem Steps.exists_next (h : Steps fuel m m') {w : Task} (hwork : m.work = w :: ws)
    (hend : m'.work = []) : ∃ m1, Step fuel m m1 ∧ Steps fuel m1 m' := by
  rcases h.cases_head with rfl | hnext
  · rw [hwork] at hend; cases hend
  · exact hnext

theorem Steps.exists_reading (h : Steps fuel m m') (hm : m.Layered made n) {w : Task}
    (hwork : m.work = w :: ws) (hend : m'.work = []) (herr : m'.state.errors = []) :
    ∃ m1 θ, Step fuel m m1 ∧ m1.state.errors = [] ∧ m'.state.store.Reading θ ∧
      m1.state.store.SolvedBy θ := by
  obtain ⟨m1, hstep, hrest⟩ := h.exists_next hwork hend
  have herr1 := hrest.errors_eq_nil herr
  have hs' := (h.refines hm herr).firstOrder
  obtain ⟨θ, hθ⟩ := hs'.grounded.exists_reading hs'.toFormed hs'.usable
  exact ⟨m1, θ, hstep, herr1, hθ,
    (hrest.refines (hstep.layered hm herr1) herr).solved θ hθ.toSolvedBy⟩

/-- An equation that was taken up holds at the end. -/
theorem Steps.snapshot_equal (h : Steps fuel m m') (hm : m.Layered made n) (hend : m'.work = [])
    (herr : m'.state.errors = []) {expected actual : Ty}
    (hwork : m.work = .solve ctx (.equal expected actual span) :: ws) :
    ∃ x, EnoughFuel fun k => m'.state.store.snapshot k expected = some x ∧
      m'.state.store.snapshot k actual = some x := by
  have hlast := h.refines hm herr
  obtain ⟨m1, θ, hstep, herr1, hθ, hθ1⟩ := h.exists_reading hm hwork hend herr
  obtain ⟨work, st, madeAt⟩ := m
  cases hwork
  cases hstep with
  | equal hrun =>
    obtain ⟨he, ha, hfits⟩ := hm.equal_fits fun t ht => ht.fits
    have hruns := Solver.runs_of_equate hrun herr1
    obtain ⟨_, x, hx, hx'⟩ := (hruns.strict hm.firstOrder ⟨he, ha⟩ hfits).sound
      hm.firstOrder.toIntact hfits _ rfl hm.firstOrder.toIntact θ hθ1
    rw [← hlast.aliases] at hx hx'
    exact ⟨x.named, (hlast.firstOrder.shows hθ (hfits.1.mono hlast.size_le) hx).and
      (hlast.firstOrder.shows hθ (hfits.2.mono hlast.size_le) hx')⟩

theorem Steps.snapshot_instanceOf (h : Steps fuel m m') (hm : m.Layered made n)
    (hend : m'.work = []) (herr : m'.state.errors = []) {name : String} {ty : Ty}
    (hwork : m.work = .solve ctx (.instanceOf name ty span) :: ws) :
    ∃ scheme u x σ, Assoc.get? ctx name = some scheme ∧ scheme.typeOf? name = some u ∧
      FixedOutside scheme.quantifiers σ ∧
      EnoughFuel fun k => m'.state.store.snapshot k u = some (Meaning.named x) ∧
        m'.state.store.snapshot k ty = some (x.subst σ).named := by
  have hlast := h.refines hm herr
  obtain ⟨m1, θ, hstep, herr1, hθ, hθ1⟩ := h.exists_reading hm hwork hend herr
  obtain ⟨work, st, madeAt⟩ := m
  cases hwork
  cases hstep with
  | instanceOf hrun =>
    obtain ⟨scheme, u, u', c, hinst, hty, hu⟩ := hm.instantiates (fun t ht => ht.fits) hrun herr1
    have hsettled := hm.schemes _ List.mem_cons_self _ (Assoc.mem_of_get? hinst.found)
    have hclear : ∀ q ∈ scheme.quantifiers, Spares q st.store m'.state.store ∧
        Clear m'.layers m'.state.store q := fun q hq => h.clear hm herr (hsettled.clear q hq)
    obtain ⟨x, σ, hσ, hux, htx⟩ := hinst.exists_subst hm.firstOrder hty hu hθ1
      (fun q hq => (hsettled.clear q hq).root)
      (fun q hq => by
        have hq' := (hclear q hq).2
        rw [hθ.free q hq'.free, hq'.root])
      (fun q hq v hv hr hmen => (hclear q hq).1.apart v hr
        ((hlast.firstOrder.mentions_iff hθ (Nat.lt_of_lt_of_le hv hlast.size_le)).mp hmen).1)
    rw [← hlast.aliases] at hux htx
    exact ⟨scheme, u, x, σ, hinst.found, hinst.typeOf, hσ,
      (hlast.firstOrder.shows hθ (hinst.source.2.mono hlast.size_le) hux).and
      (hlast.firstOrder.shows hθ (hinst.source.1.mono hlast.size_le) htx)⟩

end Moment

theorem inferProgram_ok {fuel : Nat} {program : Program} {env : Environment} {config : Config}
    {typed : TypedProgram} (h : inferProgram fuel program env config = some (.ok typed)) :
    ∃ p st, Prepared.ofProgram program env = .ok p ∧ p.solve fuel config = .done () st ∧
      st.errors = [] := by
  obtain ⟨p, st, hp, hsolve, herr, _⟩ := inferProgram_eq_ok h
  exact ⟨p, st, hp, hsolve, herr⟩

/-- In the last store of a program that gets types, both sides of each equation are shown alike.
Each demand for an instance has a moment of its own in the run, and is shown in the last store as
the type of the scheme that is in scope at that moment, with nothing replaced but quantifiers of
that scheme. -/
theorem inferProgram_satisfies {fuel : Nat} {program : Program} {env : Environment}
    {config : Config} {typed : TypedProgram} (hprogram : program.plain = true)
    (henv : env.plain = true) (h : inferProgram fuel program env config = some (.ok typed)) :
    ∃ p st, Prepared.ofProgram program env = .ok p ∧ p.solve fuel config = .done () st ∧
      (∀ expected actual span, .equal expected actual span ∈ p.constraint.leaves →
        ∃ x, EnoughFuel fun k => st.store.snapshot k expected = some x ∧
          st.store.snapshot k actual = some x) ∧
      ∀ done name ty span rest, p.constraint.leaves = done ++ .instanceOf name ty span :: rest →
        ∃ m ctx ws, Moment.Steps fuel (p.start config) m ∧
          m.work = .solve ctx (.instanceOf name ty span) :: ws ∧
          m.ahead = .instanceOf name ty span :: rest ∧
          ∃ scheme u x σ, Assoc.get? ctx name = some scheme ∧ scheme.typeOf? name = some u ∧
            FixedOutside scheme.quantifiers σ ∧
            EnoughFuel fun k => st.store.snapshot k u = some (Meaning.named x) ∧
              st.store.snapshot k ty = some (x.subst σ).named := by
  obtain ⟨p, st, hp, hsolve, herr⟩ := inferProgram_ok h
  have hstart := Prepared.layered_start hprogram henv hp config
  obtain ⟨made, hsteps⟩ := Moment.steps_of_solve [] p.store.ranks hsolve
  have hahead : (p.start config).ahead = p.constraint.leaves := List.append_nil _
  have hat : ∀ done c rest, p.constraint.leaves = done ++ c :: rest → ∃ m ctx ws,
      Moment.Steps fuel (p.start config) m ∧ Moment.Steps fuel m ⟨[], st, made⟩ ∧
      m.Layered p.store.ranks p.store.size ∧ m.work = .solve ctx c :: ws ∧ m.ahead = c :: rest := by
    intro done c rest hsplit
    obtain ⟨m, ctx, ws, hm, hrest, hwork, hm'⟩ := hsteps.exists_at rfl (hahead.trans hsplit)
    exact ⟨m, ctx, ws, hm, hrest, hm.layered hstart (hrest.errors_eq_nil herr), hwork, hm'⟩
  refine ⟨p, st, hp, hsolve, fun expected actual span hmem => ?_,
    fun done name ty span rest hsplit => ?_⟩
  · obtain ⟨done, rest, hsplit⟩ := List.append_of_mem hmem
    obtain ⟨m, ctx, ws, _, hrest, hm, hwork, _⟩ := hat done _ rest hsplit
    exact hrest.snapshot_equal hm rfl herr hwork
  · obtain ⟨m, ctx, ws, hsteps, hrest, hm, hwork, hm'⟩ := hat done _ rest hsplit
    exact ⟨m, ctx, ws, hsteps, hwork, hm', hrest.snapshot_instanceOf hm rfl herr hwork⟩

open Moment in
/-- The identity is used as a function from integers. -/
theorem inferProgram_satisfies_identity : ∃ typed, inferProgram 20 identity {} {} = some (.ok typed) ∧
    ∃ st, identityPrepared.solve 20 {} = .done () st ∧
      (∃ x, EnoughFuel fun k => st.store.snapshot k (.var 5) = some x ∧
        st.store.snapshot k (.app "Int" []) = some x) ∧
      ∃ m ctx ws, Steps 20 (identityPrepared.start {}) m ∧
        m.work = .solve ctx (.instanceOf "id" (.func (.var 5) (.var 4)) {}) :: ws ∧
        ∃ scheme u x σ, Assoc.get? ctx "id" = some scheme ∧ scheme.typeOf? "id" = some u ∧
          FixedOutside scheme.quantifiers σ ∧
          EnoughFuel fun k => st.store.snapshot k u = some (Meaning.named x) ∧
            st.store.snapshot k (.func (.var 5) (.var 4)) = some (x.subst σ).named := by
  obtain ⟨typed, htyped⟩ : ∃ typed, inferProgram 20 identity {} {} = some (.ok typed) := by
    generalize hrun : inferProgram 20 identity {} {} = r
    cbv at hrun
    exact ⟨_, hrun.symm⟩
  have hleaves : identityPrepared.constraint.leaves =
      [.equal (.var 1) (.var 3) {}, .instanceOf "x" (.var 2) {},
        .equal (.var 0) (.func (.var 1) (.var 2)) {}] ++
      .instanceOf "id" (.func (.var 5) (.var 4)) {} :: [.equal (.var 5) (.app "Int" []) {}] := by
    cbv
  obtain ⟨p, st, hp, hst, hequal, hinst⟩ := inferProgram_satisfies rfl rfl htyped
  rw [identity_prepared] at hp
  cases hp
  obtain ⟨m, ctx, ws, hsteps, hwork, _, hscheme⟩ := hinst _ _ _ _ _ hleaves
  exact ⟨typed, htyped, st, hst, hequal _ _ {} (by rw [hleaves]; simp), m, ctx, ws, hsteps, hwork,
    hscheme⟩

end TypeSolver
