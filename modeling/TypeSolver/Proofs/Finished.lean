import TypeSolver.Proofs.Avoidance
import TypeSolver.Proofs.Groups
import TypeSolver.Proofs.PlacedRuns
import TypeSolver.Proofs.Satisfaction

/-!
# TypeSolver.Proofs.Finished

The types of groups that are finished stay as they are. While a group is solved, what is elsewhere
in the store keeps its meaning, and the variables of the group do not come to mention it (`Stage`):
demands of the group are about its own variables and about instances, and an instance of a finished
type has new variables in place of all that the type mentions (`instance_avoids`). So when its
boundary is left, the group is quantified over all that its types mention (`Scheme.Finished`), and
this lasts to the end of the run (`Prepared.finished_of_solve`).
-/

namespace TypeSolver

open Store

/-! ## Instances that avoid variables -/

namespace Copying

variable {s : Store} {qs : List Var} {rank : Rank} {c : Copying} {t u : Ty} {θ : Valuation}
  {Q : Var → Prop}

variable {ρ : Var → Var} {table : AliasTable} {fs : List (String × Ty)}
  {ms : List (String × Meaning)}

theorem close_renamed {fields : List (String × Meaning)} {m : Meaning}
    (h : ∀ r, (m.subst fun r => .var (ρ r)) ≠ .var r)
    (h' : ∀ more rest, (m.subst fun r => .var (ρ r)) ≠ .record more rest) :
    Meaning.close fields m = .record fields none := by
  cases m with
  | var r => rw [Meaning.subst] at h; exact absurd rfl (h (ρ r))
  | record more rest =>
    rw [Meaning.subst_record] at h'
    cases rest with
    | none => exact absurd rfl (h' _ none)
    | some r => exact absurd rfl (h' _ (some (ρ r)))
  | _ => rfl

theorem extend_denotes (hnil : table = []) (htidy : ∀ v, (θ v).Tidy) {v : Var}
    (hsort : Assoc.Sorted fs) (hfs : Assoc.Related (Denotes table θ) fs
      (Assoc.mapValues (Meaning.subst fun r => .var (ρ r)) ms)) {n : Nat} (hu : u.Fits n)
    (hv : Denotes table θ u ((θ v).subst fun r => .var (ρ r))) :
    Denotes table θ (extend fs v u) ((Meaning.close ms (θ v)).subst fun r => .var (ρ r)) := by
  have hms : Assoc.Sorted ms := Assoc.sorted_mapValues.mp (hfs.sorted_iff.mp hsort)
  rw [Meaning.subst_close (σ := fun r => .var (ρ r)) (fun _ => trivial) hms (htidy v)]
  cases u with
  | var w => exact Denotes.record_iff.mpr ⟨_, by rw [Denotes.var_iff.mp hv]; rfl, hfs⟩
  | record more rest => exact Denotes.union htidy hsort (Ty.over_record.mp hu).1 hfs hv
  | func arg ret =>
    obtain ⟨a, b, heq, _⟩ := Denotes.func_iff.mp hv
    refine Denotes.record_iff.mpr ⟨_, ?_, hfs⟩
    rw [heq, Option.map_some, Meaning.row, close_renamed (m := θ v) (ρ := ρ) (by simp [heq])
      (by simp [heq])]
    rfl
  | app name args =>
    obtain ⟨ms', heq, _⟩ := (Denotes.app_iff (by simp [hnil, AliasTable.expand, Assoc.get?])).mp hv
    refine Denotes.record_iff.mpr ⟨_, ?_, hfs⟩
    rw [heq, Option.map_some, Meaning.row, close_renamed (m := θ v) (ρ := ρ) (by simp [heq])
      (by simp [heq])]
    rfl

theorem related_renamed {n : Nat} {σ : Valuation} {fields : List (String × Ty)}
    (h : Assoc.Related (fun t u => t.Fits n → ∀ {m}, Denotes table θ t m →
      Denotes table θ u (m.subst σ)) fields fs) (hms : Assoc.Related (Denotes table θ) fields ms)
    (hf : ∀ f ∈ fields, f.2.Fits n) :
    Assoc.Related (Denotes table θ) fs (Assoc.mapValues (Meaning.subst σ) ms) := by
  refine Assoc.Related.mapValues ?_
  exact forall₂_of_forall₂ h hms fun f hmem _ _ hfu hfm =>
    ⟨hfu.1.symm.trans hfm.1, hfu.2 (hf f hmem) hfm.2⟩

theorem Copied.denotes_renamed (h : Copied s qs c.copies t u) (hc : Extends s qs rank c) (hs : s.Formed)
    (hθ : c.store.Reading θ) (hnil : s.aliases = []) (ht : t.Fits s.size) {m : Meaning}
    (hm : Denotes s.aliases θ t m) :
    Denotes s.aliases θ u (m.subst fun r => .var (renamed c.copies r)) := by
  have hθs := hc.reading hθ
  induction h generalizing m with
  | @copy v w h =>
    obtain ⟨_, hk, hr⟩ := hc.source _ _ h
    obtain ⟨hle, hlt⟩ := hc.target _ _ h
    rw [Denotes.var_iff.mp hm, ← hθs.root, hθs.free _ hk, hr, Meaning.subst, hc.renamed_eq h]
    have hw : Denotes s.aliases θ (.var w) (θ w) := .var w
    rwa [hθ.free w (hc.kind_new hle hlt), hc.root, (Forest.root_of_size_le hle).1] at hw
  | @bound v t u hk _ ih =>
    rw [Denotes.var_iff.mp hm]
    exact ih (hs.fits v t hk) (hθs.bound v t hk)
  | @free v hk hn =>
    rw [Denotes.var_iff.mp hm]
    have hv : Denotes s.aliases θ (.var v) (θ v) := .var v
    rw [hθs.free v hk] at hv ⊢
    rwa [Meaning.subst, renamed_of_not_mem fun w hw => hn (hc.source _ _ hw).1]
  | @poisoned v hk =>
    rw [Denotes.var_iff.mp hm]
    have hv : Denotes s.aliases θ (.var v) (θ v) := .var v
    rw [hθs.poisoned v (ht.lt (by simp)) hk] at hv ⊢
    rwa [Meaning.subst]
  | func _ _ iha ihr =>
    obtain ⟨ha, hr⟩ := Ty.over_func.mp ht
    obtain ⟨a, r, rfl, hma, hmr⟩ := Denotes.func_iff.mp hm
    rw [Meaning.subst]
    exact .func (iha ha hma) (ihr hr hmr)
  | @app name args ts hlen _ ih =>
    have hne : ∀ args t, s.aliases.expand name args ≠ some (.ok t) := by
      simp [hnil, AliasTable.expand, Assoc.get?]
    obtain ⟨ms, rfl, hms⟩ := (Denotes.app_iff (hne args)).mp hm
    rw [Meaning.subst]
    refine (Denotes.app_iff (hne ts)).mpr ⟨_, rfl, ?_⟩
    rw [List.forall₂_map_right_iff]
    exact forall₂_of_forall₂ (forall₂_of_zip hlen ih) hms fun a ha _ _ hab hm =>
      hab (Ty.over_app.mp ht a ha) hm
  | closed hk _ ih =>
    obtain ⟨_, hf, _⟩ := Ty.over_record.mp ht
    obtain ⟨ms, rfl, hms⟩ := Denotes.record_iff.mp hm
    rw [Option.map_none, Meaning.row, Meaning.subst_record]
    exact Denotes.record_iff.mpr ⟨_, rfl, related_renamed (Assoc.related_of_zip hk ih) hms hf⟩
  | @opened fields fs v u hk _ hcopied ih ihv =>
    obtain ⟨hsort, hf, hext⟩ := Ty.over_record.mp ht
    have hv : (Ty.var v).Fits s.size := Ty.over_var.mpr (hext v rfl)
    obtain ⟨ms, rfl, hms⟩ := Denotes.record_iff.mp hm
    exact extend_denotes hnil hθ.tidy (by rwa [Assoc.Sorted, ← hk])
      (related_renamed (Assoc.related_of_zip hk ih) hms hf)
      (hcopied.fits hs hc.size_le (fun q w h => (hc.target q w h).2) hv)
      (ihv hv (.var v))

/-- Copying only adds variables, of a rank of the inside. -/
theorem Extends.keepsApart (hc : Extends s qs rank c) (hs : s.Intact)
    (hQ : ∀ q, Q q → q < s.size) (hrank : 0 < rank) : KeepsApart Q s c.store where
  intact := by
    refine ⟨⟨hc.formed hs.toFormed, by rw [hc.aliases]; exact hs.usable⟩, hc.grounded hs.grounded,
      fun v hv => ?_⟩
    rcases Nat.lt_or_ge v s.size with hlt | hge
    · rw [hc.kind_old hlt]; exact hs.healthy v hlt
    · rw [hc.kind_new hge hv]; simp
  size_le := hc.size_le
  aliases := hc.aliases
  solved _ := hc.solvedBy
  kept r _ hr hk :=
    ⟨(hc.root r).trans hr, (hc.kind_old (lt_of_kind (by simp [hk]))).trans hk⟩
  clear r hr hk hq := by
    refine avoids_var_of_free ((hc.kind_old (lt_of_kind (by simp [hk]))).trans hk) ?_
    rwa [hc.root, hr]
  new v hv hv' := by
    refine avoids_var_of_free (hc.kind_new hv hv') fun hq => ?_
    rw [hc.root, (Forest.root_of_size_le hv).1] at hq
    exact absurd (hQ v hq) (Nat.not_lt.mpr hv)
  raised Z _ hraised v k hk hq := by
    rcases Nat.lt_or_ge v s.size with hlt | hge
    · rw [rank?, hc.content v hlt, ← rank?] at hk
      exact hraised v k hk (by rwa [← hc.root])
    · obtain ⟨hint, hcon⟩ := hc.unbound v hge (lt_of_rank? hk)
      rw [rank?, hcon] at hk
      cases hk
      exact hrank

end Copying

namespace Store

variable {s s' start : Store} {Q own pending : Var → Prop} {t u : Ty} {n : Nat}

theorem instance_avoids {k : Nat} {quantifiers : List Var} {rank : Rank}
    (h : s.instantiate k quantifiers rank t = some (u, s')) (hs : s.Intact) (hnil : s.aliases = [])
    (ht : t.Fits s.size) (hQ : ∀ q, Q q → q < s.size) (hrank : 0 < rank)
    (hav : s.Avoids (fun r => Q r ∧ r ∉ quantifiers) t) :
    KeepsApart Q s s' ∧ u.Fits s'.size ∧ s'.Avoids Q u := by
  obtain ⟨c, rfl, hc, hcopied⟩ := instance_copied hs.forest hs.toFormed.contained h ht.below
  have hkeeps := hc.keepsApart hs hQ hrank
  rcases hcopied with ⟨rfl, rfl, heq⟩ | hcopied
  · refine ⟨hkeeps, ht.mono hc.size_le, hkeeps.avoids hs ht fun θ m hθ hm r hr hq => ?_⟩
    exact hav θ m hθ hm r hr ⟨hq, List.not_mem_nil⟩
  · refine ⟨hkeeps, hcopied.fits hs.toFormed hc.size_le (fun q w h => (hc.target q w h).2) ht, ?_⟩
    intro θ m' hθ hm' r hr hq
    have hθs := hc.reading hθ
    obtain ⟨m, hm⟩ := hs.usable.exists_denotes θ t
    rw [hc.aliases] at hm'
    rw [hm'.unique (hcopied.denotes_renamed hc hs.toFormed hθ hnil ht hm)] at hr
    obtain ⟨x, hx, hr⟩ := Meaning.exists_mentions_of_subst hr
    obtain rfl := Meaning.mentions_var.mp hr
    obtain ⟨hk, hroot, v, hv, hvx⟩ := hθs.exists_of_mentions hs ht hm hx
    by_cases hcopy : ∃ w, (x, w) ∈ c.copies
    · obtain ⟨w, hw⟩ := hcopy
      rw [hc.renamed_eq hw] at hq
      exact absurd (hQ w hq) (Nat.not_lt.mpr (hc.target x w hw).1)
    · rw [Copying.renamed_of_not_mem fun w hw => hcopy ⟨w, hw⟩] at hq
      have hmem : x ∈ quantifiers := by
        by_contra hn
        exact hav θ m hθs hm x hx ⟨hq, hn⟩
      exact hcopy (hcopied.covers hs.forest (fun q w h => (hc.source q w h).2.1) hv hvx
        (List.mem_map.mpr ⟨x, hmem, hroot⟩) hk)

/-! ## Variables outside a group -/

structure Lone (s : Store) (v : Var) : Prop where
  root : s.root v = v
  free : s.kind v = .free
  only : ∀ w, w < s.size → w ≠ v → s.Avoids (· = v) (.var w)

theorem Lone.lt {v : Var} (h : s.Lone v) : v < s.size := lt_of_kind (by simp [h.free])

/-- The variables of the store that are not the group's own. -/
def Elsewhere (s : Store) (own : Var → Prop) (v : Var) : Prop := v < s.size ∧ ¬ own v

section Elsewhere

variable (hs : start.Intact) (hown : ∀ v, own v → start.Lone v)
  (h : KeepsApart (start.Elsewhere own) start s)

include hs hown h

theorem KeepsApart.denotes_elsewhere (ht : t.Over (start.Elsewhere own)) {θ0 θ : Valuation}
    (hθ0 : start.Reading θ0) (hθ : s.Reading θ) {m : Meaning} (hm : Denotes start.aliases θ0 t m) :
    Denotes s.aliases θ t m := by
  have hfits : t.Fits start.size := ht.mono fun _ hv => hv.1
  have hsubst := (h.solved θ hθ.toSolvedBy).denotes_subst hθ0 hs.grounded hs.toFormed hs.usable
    hfits hm
  rw [h.aliases]
  rwa [Meaning.subst_eq_self fun r hr => ?_] at hsubst
  obtain ⟨hk, hroot, _⟩ := hθ0.exists_of_mentions hs hfits hm hr
  have hout : start.Elsewhere own r := by
    refine ⟨lt_of_kind (by simp [hk]), fun hr' => ?_⟩
    refine hm.avoids (Q := (· = r)) hs.usable (ht.mono fun v hv => ?_) r hr rfl
    exact avoids_var.mp ((hown r hr').only v hv.1 (by rintro rfl; exact hv.2 hr')) θ0 hθ0
  obtain ⟨hroot', hk'⟩ := h.kept r hout hroot hk
  rw [hθ.free r hk', hroot']

theorem KeepsApart.avoids_elsewhere (ht : t.Over (start.Elsewhere own)) (hav : start.Avoids Q t) :
    s.Avoids Q t := by
  intro θ m hθ hm
  obtain ⟨θ0, hθ0⟩ := hs.grounded.exists_reading hs.toFormed hs.usable
  obtain ⟨m0, hm0⟩ := hs.usable.exists_denotes θ0 t
  rw [hm.unique (h.denotes_elsewhere hs hown ht hθ0 hθ hm0)]
  exact hav θ0 m0 hθ0 hm0

omit hs in
theorem KeepsApart.avoids_inside {v : Var} (hv : v < s.size) (hn : ¬ start.Elsewhere own v) :
    s.Avoids (start.Elsewhere own) (.var v) := by
  rcases Nat.lt_or_ge v start.size with hlt | hge
  · have hv' : own v := by
      by_contra hv'
      exact hn ⟨hlt, hv'⟩
    exact h.clear v (hown v hv').root (hown v hv').free hn
  · exact h.new v hge hv

theorem KeepsApart.lone {v : Var} (hv : start.Lone v) (hn : ¬ own v) : s.Lone v := by
  have hout : start.Elsewhere own v := ⟨hv.lt, hn⟩
  obtain ⟨hroot, hk⟩ := h.kept v hout hv.root hv.free
  refine ⟨hroot, hk, fun w hw hne => ?_⟩
  by_cases hw' : start.Elsewhere own w
  · exact h.avoids_elsewhere hs hown (Ty.over_var.mpr hw') (hv.only w hw'.1 hne)
  · refine avoids_var.mpr fun θ hθ r hr => ?_
    rintro rfl
    exact avoids_var.mp (h.avoids_inside hown hw hw') θ hθ r hr hout

end Elsewhere

/-- A group with the variables `own` is being solved since the store was `start`; of the others,
those that are `pending` have not been looked at yet. The environment has the first `n`. -/
structure Stage (n : Nat) (own pending : Var → Prop) (start s : Store) : Prop where
  intact : start.Intact
  noAliases : start.aliases = []
  size_le : n ≤ start.size
  lone : ∀ v, own v ∨ pending v → start.Lone v ∧ n ≤ v
  apart : ∀ v, own v → ¬ pending v
  keeps : KeepsApart (start.Elsewhere own) start s
  raised : s.Raised (· < n)

namespace Stage

variable (h : Stage n own pending start s)

include h

theorem elsewhere_of_lt {v : Var} (hv : v < n) : start.Elsewhere own v :=
  ⟨hv.trans_le h.size_le, fun hv' =>
    absurd hv (Nat.not_lt.mpr (h.lone v (.inl hv')).2)⟩

theorem advance (hs' : KeepsApart (start.Elsewhere own) s s') : Stage n own pending start s' :=
  { h with
    keeps := h.keeps.trans hs'
    raised := hs'.raised _ (fun _ => h.elsewhere_of_lt) h.raised }

theorem fits_own (ht : t.Over own) : t.Fits s.size :=
  ht.mono fun v hv => Nat.lt_of_lt_of_le (h.lone v (.inl hv)).1.lt h.keeps.size_le

theorem avoids_own (ht : t.Over own) : s.Avoids (start.Elsewhere own) t := fun θ _ hθ hm =>
  hm.avoids h.keeps.intact.usable (ht.mono fun v hv => avoids_var.mp
    (h.keeps.avoids_inside (fun v hv => (h.lone v (.inl hv)).1)
      (Nat.lt_of_lt_of_le (h.lone v (.inl hv)).1.lt h.keeps.size_le) fun hv' => hv'.2 hv) θ hθ)

theorem unify {fuel : Nat} {l r : Ty} (hrun : Store.unify fuel l r s = .unified s')
    (hstrict : (Call.types l r).Keeps .strict fuel s) (hl : l.Fits s.size) (hr : r.Fits s.size)
    (havl : s.Avoids (start.Elsewhere own) l) (havr : s.Avoids (start.Elsewhere own) r) :
    Stage n own pending start s' :=
  h.advance ((hstrict.runs hrun (by simp)).keepsApart h.keeps.intact ⟨hl, hr⟩
    (fun v k hk hq => h.raised v k hk fun hv => hq (h.elsewhere_of_lt hv))
    (fun _ hq => hq.1.trans_le h.keeps.size_le) ⟨havl, havr⟩)

theorem next {own' pending' : Var → Prop} (hsub : ∀ v, own' v ∨ pending' v → pending v)
    (hapart : ∀ v, own' v → ¬ pending' v) : Stage n own' pending' s s where
  intact := h.keeps.intact
  noAliases := h.keeps.aliases.trans h.noAliases
  size_le := h.size_le.trans h.keeps.size_le
  lone v hv := by
    obtain ⟨hlone, hle⟩ := h.lone v (.inr (hsub v hv))
    exact ⟨h.keeps.lone h.intact (fun v hv => (h.lone v (.inl hv)).1) hlone
      fun hv' => h.apart v hv' (hsub v hv), hle⟩
  apart := hapart
  keeps := .refl h.keeps.intact
  raised := h.raised

end Stage
end Store

/-! ## Schemes of finished groups -/

/-- The types of the scheme mention only variables that it is quantified over, and none of their
variables are in `V`. -/
def Scheme.Finished (s : Store) (V : Var → Prop) (scheme : Scheme) : Prop :=
  ∀ e ∈ scheme.header, e.2.Over (fun v => v < s.size ∧ ¬ V v) ∧
    s.Avoids (· ∉ scheme.quantifiers) e.2

section Stage

variable {n : Nat} {own pending : Var → Prop} {start s s' : Store}

variable {scheme : Scheme} {V : Var → Prop}

theorem Scheme.Finished.next (hf : scheme.Finished start fun v => own v ∨ pending v)
    (h : Stage n own pending start s) (hV : ∀ v, V v → pending v) :
    scheme.Finished s V := fun e he => by
  obtain ⟨hover, hav⟩ := hf e he
  refine ⟨hover.mono fun v hv => ⟨hv.1.trans_le h.keeps.size_le,
    fun hv' => hv.2 (.inr (hV v hv'))⟩, ?_⟩
  exact h.keeps.avoids_elsewhere h.intact (fun v hv => (h.lone v (.inl hv)).1)
    (hover.mono fun v hv => ⟨hv.1, fun hv' => hv.2 (.inl hv')⟩) hav

theorem Scheme.finished_of_header (h : Stage n own pending start s)
    (hheader : ∀ e ∈ scheme.header, e.2.Over own)
    (hq : scheme.quantifiers = s.generalizable scheme.header 0) (hV : ∀ v, V v → pending v) :
    scheme.Finished s V := by
  intro e he
  have hover := hheader e he
  have hs := h.keeps.intact
  refine ⟨hover.mono fun v hv => ⟨Nat.lt_of_lt_of_le (h.lone v (.inl hv)).1.lt h.keeps.size_le,
    fun hv' => h.apart v hv (hV v hv')⟩, fun θ m hθ hm r hr hn => hn ?_⟩
  obtain ⟨hk, hroot, v, hv, hvr⟩ := hθ.exists_of_mentions hs (h.fits_own hover) hm hr
  obtain ⟨k, hk⟩ := kind_eq_free_iff_rank?.mp hk
  rw [hq, mem_generalizable hs.toFormed fun e he v hv => (h.fits_own (hheader e he)).lt hv]
  refine ⟨⟨e, he, v, hv, hvr⟩, k, hk, h.raised r k hk fun hlt => ?_⟩
  exact h.avoids_own hover θ m hθ hm r hr (h.elsewhere_of_lt (hroot ▸ hlt))

end Stage

namespace Store.Stage

variable {n : Nat} {own pending : Var → Prop} {start s : Store}

theorem scheme_type (h : Stage n own pending start s) {scheme : Scheme}
    (hscheme : (∀ e ∈ scheme.header, e.2.Over own) ∨
      scheme.Finished start fun v => own v ∨ pending v) {e : String × Ty} (he : e ∈ scheme.header) :
    e.2.Fits s.size ∧ s.Avoids (fun r => start.Elsewhere own r ∧ r ∉ scheme.quantifiers) e.2 := by
  rcases hscheme with hown | hfinished
  · exact ⟨h.fits_own (hown e he), fun θ m hθ hm r hr hq =>
      h.avoids_own (hown e he) θ m hθ hm r hr hq.1⟩
  · obtain ⟨hover, hav⟩ := hfinished.next h (V := pending) (fun _ hv => hv) e he
    exact ⟨hover.mono fun _ hv => hv.1, fun θ m hθ hm r hr hq => hav θ m hθ hm r hr hq.2⟩

end Store.Stage

/-! ## Moments -/

structure Layer.Inside (own pending : Var → Prop) (start : Store) (L : Layer) : Prop where
  rank : 0 < L.rank
  header : ∀ e ∈ L.header, e.2.Over own
  types : L.rest.Types (·.Over own)
  context : ∀ e ∈ L.context, (∀ h ∈ e.2.header, h.2.Over own) ∨
    e.2.Finished start fun v => own v ∨ pending v

structure Layer.Outermost (own : Var → Prop) (start : Store) (L : Layer) : Prop where
  rank : L.rank = 0
  header : ∀ e ∈ L.header, e.2.Over own
  chain : L.rest.Chain
  types : L.rest.Types (·.Over fun _ => True)
  context : ∀ e ∈ L.context, e.2.Finished start fun v => own v ∨ L.rest.Mentions v

/-- What holds at each moment of a run without errors, with `top` as the schemes of the program so
far. -/
inductive Settling (n : Nat) (top : Context) (s : Store) : List Layer → Prop where
  | done : s.Intact → s.aliases = [] → (∀ e ∈ top, e.2.Finished s fun _ => False) →
      Settling n top s []
  | group {start : Store} {L : Layer} (own : Var → Prop) (inner : List Layer) :
      Stage n own L.rest.Mentions start s → (∀ X ∈ inner, X.Inside own L.rest.Mentions start) →
      L.Outermost own start →
      (∀ e ∈ top, e.2.Finished start fun v => own v ∨ L.rest.Mentions v) →
      Settling n top s (inner ++ [L])

namespace Settling

variable {n : Nat} {top : Context} {s s' : Store} {X : Layer} {Ls new : List Layer}

theorem cons_cases (h : Settling n top s (X :: Ls)) :
    (∃ start own inner L, Ls = inner ++ [L] ∧ Stage n own L.rest.Mentions start s ∧
      X.Inside own L.rest.Mentions start ∧ (∀ X ∈ inner, X.Inside own L.rest.Mentions start) ∧
      L.Outermost own start ∧
      ∀ e ∈ top, e.2.Finished start fun v => own v ∨ L.rest.Mentions v) ∨
    ∃ start own, Ls = [] ∧ Stage n own X.rest.Mentions start s ∧ X.Outermost own start ∧
      ∀ e ∈ top, e.2.Finished start fun v => own v ∨ X.rest.Mentions v := by
  generalize hLs : X :: Ls = all at h
  cases h with
  | done => cases hLs
  | @group start L own inner hstage hinner hout htop =>
    cases inner with
    | nil =>
      cases hLs
      exact .inr ⟨start, own, rfl, hstage, hout, htop⟩
    | cons Y inner =>
      cases hLs
      exact .inl ⟨start, own, inner, L, rfl, hstage, hinner X List.mem_cons_self,
        fun Y hY => hinner Y (.tail _ hY), hout, htop⟩

theorem intact (h : Settling n top s Ls) : s.Intact := by
  cases h with
  | done hs => exact hs
  | group _ _ hstage => exact hstage.keeps.intact

theorem relinked (h : Settling n top s (X :: Ls)) (hs : Relinked s s') :
    Settling n top s' (X :: Ls) := by
  generalize hLs : X :: Ls = all at h ⊢
  cases h with
  | done => cases hLs
  | group own inner hstage hinner hout htop =>
    have hintact := hstage.keeps.intact
    have hl := hintact.forest.linksEnd
    exact .group own inner (hstage.advance (.of_content hintact (hs.forest hintact.forest)
      (hs.alike hl) (hs.content hl))) hinner hout htop

theorem drop (h : Settling n top s (X :: Ls)) : Settling n top s Ls := by
  rcases h.cons_cases with ⟨start, own, inner, L, rfl, hstage, _, hinner, hout, htop⟩ |
    ⟨start, own, rfl, hstage, hout, htop⟩
  · exact .group own inner hstage hinner hout htop
  · exact .done hstage.keeps.intact (hstage.keeps.aliases.trans hstage.noAliases) fun e he =>
      (htop e he).next hstage fun _ hv => hv.elim

variable {k : Rank} {ctx : Context} {header : Header} {body : Constraint} {scheme : Scheme}
  {span : Span}

theorem conj {items : List Constraint}
    (h : Settling n top s ({ rank := k, context := ctx, rest := .conj items } :: Ls)) :
    Settling n top s ((items.map fun c => { rank := k, context := ctx, rest := c }) ++ Ls) := by
  rcases h.cons_cases with ⟨start, own, inner, L, rfl, hstage, hX, hinner, hout, htop⟩ |
    ⟨start, own, rfl, hstage, hout, htop⟩
  · rw [← List.append_assoc]
    refine .group own _ hstage (fun Y hY => ?_) hout htop
    rcases List.mem_append.mp hY with hY | hY
    · obtain ⟨c, hc, rfl⟩ := List.mem_map.mp hY
      obtain ⟨hrank, _, htypes, hctx⟩ := hX
      cases htypes with
      | conj htypes => exact ⟨hrank, nofun, htypes c hc, hctx⟩
    · exact hinner Y hY
  · cases hout.chain

theorem enter {vars : List Var} {defs : Constraint}
    (h : Settling n top s ({ rank := k, context := ctx, rest := .letIn vars header defs body } :: Ls))
    : Settling n top s ({ rank := k + 1, context := ctx, rest := defs } ::
      ⟨k, ctx, header, body⟩ :: Ls) := by
  rcases h.cons_cases with ⟨start, own, inner, L, rfl, hstage, hX, hinner, hout, htop⟩ |
    ⟨start, own, rfl, hstage, hout, htop⟩
  · obtain ⟨hrank, _, htypes, hctx⟩ := hX
    cases htypes with
    | letIn hheader hdefs hbody =>
      refine .group own (_ :: _ :: inner) hstage (fun Y hY => ?_) hout htop
      simp only [List.mem_cons] at hY
      rcases hY with rfl | rfl | hY
      · exact ⟨Nat.succ_pos k, nofun, hdefs, hctx⟩
      · exact ⟨hrank, hheader, hbody, hctx⟩
      · exact hinner Y hY
  · obtain ⟨hrank, _, hchain, htypes, hctx⟩ := hout
    cases hchain with
    | letIn hapart hchain =>
      cases htypes with
      | letIn hheader hdefs hbody =>
        have hmentions : ∀ v, Constraint.MentionsGroup header defs v ∨ body.Mentions v →
            (Constraint.letIn vars header defs body).Mentions v := by
          rintro v ((⟨e, he, hv⟩ | hv) | hv)
          · exact .header he hv
          · exact .defs hv
          · exact .body hv
        have hnext : Stage n (Constraint.MentionsGroup header defs) body.Mentions s s :=
          hstage.next hmentions hapart
        have hfinished : ∀ scheme : Scheme, scheme.Finished start (fun v => own v ∨
              (Constraint.letIn vars header defs body).Mentions v) →
            scheme.Finished s fun v => Constraint.MentionsGroup header defs v ∨ body.Mentions v :=
          fun scheme h => h.next hstage hmentions
        refine .group _ [_] hnext (fun Y hY => ?_)
          ⟨hrank, fun e he => (hheader e he).restrict fun v hv => .inl ⟨e, he, hv⟩, hchain, hbody,
            fun e he => hfinished _ (hctx e he)⟩ fun e he => hfinished _ (htop e he)
        obtain rfl := List.mem_singleton.mp hY
        exact ⟨Nat.succ_pos k, nofun, hdefs.imp fun t ht hv => ht.restrict fun v hv' =>
          .inr (hv v hv'), fun e he => .inr (hfinished _ (hctx e he))⟩

theorem leave (h : Settling n top s (⟨k, ctx, header, body⟩ :: Ls))
    (hheader : scheme.header = header) (hquant : scheme.quantifiers = s.generalizable header k) :
    Settling n (if k = 0 then Solver.bindNames top header scheme else top) s
      ({ rank := k, context := Solver.bindNames ctx header scheme, rest := body } :: Ls) := by
  subst hheader
  rcases h.cons_cases with ⟨start, own, inner, L, rfl, hstage, hX, hinner, hout, htop⟩ |
    ⟨start, own, rfl, hstage, hout, htop⟩
  · obtain ⟨hrank, hheader, htypes, hctx⟩ := hX
    rw [if_neg (Nat.pos_iff_ne_zero.mp hrank)]
    refine .group own (_ :: inner) hstage (fun Y hY => ?_) hout htop
    rcases List.mem_cons.mp hY with rfl | hY
    · refine ⟨hrank, nofun, htypes, fun e he => ?_⟩
      rcases Layer.mem_bindNames he with he | heq
      · exact hctx e he
      · exact .inl fun h hh => hheader h (heq ▸ hh)
    · exact hinner Y hY
  · obtain ⟨rfl, hheader, hchain, htypes, hctx⟩ := hout
    have hnext : Stage n (fun _ => False) body.Mentions s s :=
      hstage.next (fun v hv => hv.resolve_left id) fun v hv => hv.elim
    have hscheme : scheme.Finished s fun v => False ∨ body.Mentions v :=
      Scheme.finished_of_header hstage hheader hquant fun v hv => hv.resolve_left id
    have hbind : ∀ ctx : Context, (∀ e ∈ ctx, e.2.Finished start fun v => own v ∨ body.Mentions v) →
        ∀ e ∈ Solver.bindNames ctx scheme.header scheme,
          e.2.Finished s fun v => False ∨ body.Mentions v := by
      intro ctx hctx e he
      rcases Layer.mem_bindNames he with he | heq
      · exact (hctx e he).next hstage fun v hv => hv.resolve_left id
      · exact heq ▸ hscheme
    exact .group _ [] hnext nofun ⟨rfl, nofun, hchain, htypes, hbind ctx hctx⟩
      (hbind top htop)

theorem equal {expected actual : Ty} {fuel : Nat}
    (h : Settling n top s ({ rank := k, context := ctx, rest := .equal expected actual span } :: Ls))
    (hrun : Store.unify fuel expected actual s = .unified s')
    (hstrict : (Call.types expected actual).Keeps .strict fuel s) : Settling n top s' Ls := by
  rcases h.cons_cases with ⟨start, own, inner, L, rfl, hstage, hX, hinner, hout, htop⟩ |
    ⟨start, own, rfl, hstage, hout, htop⟩
  · cases hX.types with
    | equal hl hr =>
      exact .group own inner (hstage.unify hrun hstrict (hstage.fits_own hl) (hstage.fits_own hr)
        (hstage.avoids_own hl) (hstage.avoids_own hr)) hinner hout htop
  · cases hout.chain

theorem instanceOf {name : String} {t u u' : Ty} {fuel : Nat} {s1 : Store}
    (h : Settling n top s ({ rank := k, context := ctx, rest := .instanceOf name t span } :: Ls))
    (hscheme : Assoc.get? ctx name = some scheme) (hu : scheme.typeOf? name = some u)
    (hinst : s.instantiate fuel scheme.quantifiers k u = some (u', s1))
    (hrun : Store.unify fuel t u' s1 = .unified s')
    (hstrict : (Call.types t u').Keeps .strict fuel s1) : Settling n top s' Ls := by
  rcases h.cons_cases with ⟨start, own, inner, L, rfl, hstage, hX, hinner, hout, htop⟩ |
    ⟨start, own, rfl, hstage, hout, htop⟩
  · obtain ⟨hrank, _, htypes, hctx⟩ := hX
    cases htypes with
    | instanceOf ht =>
      obtain ⟨hfits, hav⟩ := hstage.scheme_type (hctx _ (Assoc.mem_of_get? hscheme))
        (Assoc.mem_of_get? hu)
      obtain ⟨hkeeps, hfits', hav'⟩ := instance_avoids hinst hstage.keeps.intact
        (hstage.keeps.aliases.trans hstage.noAliases) hfits
        (fun q hq => hq.1.trans_le hstage.keeps.size_le) hrank hav
      have hstage1 := hstage.advance hkeeps
      exact .group own inner (hstage1.unify hrun hstrict (hstage1.fits_own ht) hfits'
        (hstage1.avoids_own ht) hav') hinner hout htop
  · cases hout.chain

end Settling

namespace Moment

/-- Until an error is recorded, all comparisons from here on keep the strict guard. -/
def Strictly (fuel : Nat) (m : Moment) : Prop :=
  ∀ m' l r s, Steps fuel m m' → m'.state.errors = [] → Compares fuel m' l r s →
    (Call.types l r).Keeps .strict fuel s

/-- Until an error is recorded, all comparisons from here on keep the guard. -/
def Guarded (g : Guard) (fuel : Nat) (m : Moment) : Prop :=
  ∀ m' l r s, Steps fuel m m' → m'.state.errors = [] → Compares fuel m' l r s →
    (Call.types l r).Keeps g fuel s

def Asks (m : Moment) : Prop :=
  match m.work with
  | .solve _ (.equal ..) :: _ => True
  | .solve _ (.instanceOf ..) :: _ => True
  | _ => False

theorem Compares.asks {fuel : Nat} {m : Moment} {l r : Ty} {s : Store}
    (h : Compares fuel m l r s) : m.Asks := by
  cases h with
  | equal hwork => rw [Asks, hwork]; trivial
  | instanceOf hwork => rw [Asks, hwork]; trivial

theorem Step.unique {fuel : Nat} {m m1 m2 : Moment} (h1 : Step fuel m m1) (h2 : Step fuel m m2) :
    m1 = m2 :=
  Option.some.inj ((next_eq_some_iff.mpr h1).symm.trans (next_eq_some_iff.mpr h2))

namespace Guarded

variable {g : Guard} {fuel : Nat} {m m' : Moment}

theorem of_step (h : Step fuel m m')
    (hm : ∀ l r s, Compares fuel m l r s → (Call.types l r).Keeps g fuel s)
    (hm' : m'.Guarded g fuel) : m.Guarded g fuel := by
  intro m1 l r s hsteps herr hlr
  rcases hsteps.cases_head with rfl | ⟨m2, hstep, hrest⟩
  · exact hm l r s hlr
  · obtain rfl := h.unique hstep
    exact hm' m1 l r s hrest herr hlr

theorem of_idle (h : Step fuel m m') (hm : ¬ m.Asks) (hm' : m'.Guarded g fuel) : m.Guarded g fuel :=
  of_step h (fun _ _ _ hlr => absurd hlr.asks hm) hm'

variable {ctx : Context} {span : Span} {ws : List Task} {st : Solver} {made : Var → Rank}

theorem of_equal {expected actual : Ty} (s : Store)
    (hrun : Store.unify fuel expected actual st.store = .unified s)
    (h : (Call.types expected actual).Keeps g fuel st.store)
    (hnext : Guarded g fuel ⟨ws, { st with store := s }, noted ⟨ws, st, made⟩⟩) :
    Guarded g fuel ⟨.solve ctx (.equal expected actual span) :: ws, st, made⟩ := by
  refine of_step (.equal (by rw [Solver.equate, hrun])) (fun l r s hlr => ?_) hnext
  cases hlr with
  | equal hwork => cases hwork; exact h
  | instanceOf hwork => cases hwork

theorem of_instance {name : String} {t u u' : Ty} {scheme : Scheme} (s s' : Store)
    (hscheme : Assoc.get? ctx name = some scheme) (hu : scheme.typeOf? name = some u)
    (hinst : st.store.instantiate fuel scheme.quantifiers st.rank u = some (u', s))
    (hrun : Store.unify fuel t u' s = .unified s') (h : (Call.types t u').Keeps g fuel s)
    (hnext : Guarded g fuel ⟨ws, { st with store := s' }, noted ⟨ws, st, made⟩⟩) :
    Guarded g fuel ⟨.solve ctx (.instanceOf name t span) :: ws, st, made⟩ := by
  refine of_step (.instanceOf (by simp only [Solver.equateInstance, hscheme, hu, hinst, Solver.equate,
    hrun])) (fun l r s hlr => ?_) hnext
  cases hlr with
  | equal hwork => cases hwork
  | instanceOf hwork hscheme' hu' hinst' =>
    cases hwork
    cases hscheme.symm.trans hscheme'
    cases hu.symm.trans hu'
    cases hinst.symm.trans hinst'
    exact h

theorem of_done (h : m.work = []) : m.Guarded g fuel := by
  intro m1 l r s hsteps _ hlr
  rcases hsteps.cases_head with rfl | ⟨m2, hstep, _⟩
  · exact absurd hlr.asks (by rw [Asks, h]; exact id)
  · cases hstep <;> cases h

end Guarded

def Settling (n : Nat) (m : Moment) : Prop :=
  TypeSolver.Settling n m.state.topLevel m.state.store m.layers

variable {n fuel : Nat} {m m' : Moment}

theorem Step.settling (h : Step fuel m m') (hm : m.Settling n)
    (hstrict : ∀ l r s, Compares fuel m l r s → (Call.types l r).Keeps .strict fuel s)
    (herr : m'.state.errors = []) : m'.Settling n := by
  rw [Settling] at hm ⊢
  cases h with
  | trivial => exact hm.drop
  | checkpoint => exact hm.drop
  | equal h =>
    rw [Solver.topLevel_of_equate h, layers, Solver.rank_of_equate h]
    exact hm.equal (unified_of_equate h herr) (hstrict _ _ _ (.equal rfl))
  | instanceOf h =>
    rw [layers, Solver.rank_of_equateInstance h]
    obtain ⟨scheme, u, u', s, hscheme, hu, hinst, h⟩ := Solver.equateInstance_eq_done h
    rw [Solver.topLevel_of_equate h]
    exact hm.instanceOf hscheme hu hinst (unified_of_equate h herr)
      (hstrict _ _ _ (.instanceOf rfl hscheme hu hinst))
  | conj =>
    rw [layers, layers_items]
    exact hm.conj
  | enter => exact hm.enter
  | @leave _ outer _ header =>
    have hl := hm.intact.forest.linksEnd
    exact (hm.leave rfl (generalize_fst hl header outer)).relinked
      (generalize_relinked hl header outer)
  | restore => exact hm

theorem Steps.settling (h : Steps fuel m m') (hm : m.Settling n) (hstrict : m.Strictly fuel)
    (herr : m'.state.errors = []) : m'.Settling n := by
  induction h with
  | refl => exact hm
  | @tail m1 m2 hsteps hstep ih =>
    have herr1 := Steps.errors_eq_nil (.single hstep) herr
    exact hstep.settling (ih herr1) (fun l r s => hstrict m1 l r s hsteps herr1) herr

end Moment

/-! ## Runs of a program -/

namespace Store.Untouched

variable {s : Store} (h : s.Untouched)

include h

theorem avoids {Q : Var → Prop} {t : Ty} (hu : s.aliases.Usable)
    (ht : t.Over fun v => v < s.size ∧ ¬ Q v) : s.Avoids Q t := fun θ m hθ hm =>
  hm.avoids hu (ht.mono fun v hv => avoids_var.mp (avoids_var_of_free (h.free v hv.1)
    (by rw [h.root]; exact hv.2)) θ hθ)

theorem lone (hu : s.aliases.Usable) {v : Var} (hv : v < s.size) : s.Lone v :=
  ⟨h.root v, h.free v hv, fun _ hw hne => h.avoids hu (Ty.over_var.mpr ⟨hw, hne⟩)⟩

end Store.Untouched

namespace Prepared

variable {program : Program} {env : Environment} {p : Prepared}

theorem settling_start (hnil : env.aliases = []) (hsorted : env.Sorted)
    (h : ofProgram program env = .ok p) (config : Config) :
    (p.start config).Settling p.initialSize := by
  obtain ⟨table, htable, haliases, hsize, huntouched, place, hmade⟩ :=
    ofProgram_makes hsorted.admits (.inl .intro) h
  obtain ⟨hclosed, hsound⟩ := hmade _ huntouched.madeAt
  obtain ⟨hchain, hdeep⟩ := ofProgram_chain h
  have hnil : p.store.aliases = [] := by
    rw [Environment.aliasTable, hnil] at htable
    cases htable
    exact haliases
  have hu : p.store.aliases.Usable := by
    rw [hnil]
    refine @Environment.aliasTable_usable {} [] ?_ rfl
    exact fun e he => absurd he List.not_mem_nil
  have hs := huntouched.compress config.pathCompression
  have hintact := (hs.firstOrder hu).toIntact
  have hrange : ∀ v, p.constraint.Mentions v → p.initialSize ≤ v ∧ v < p.store.size :=
    fun v hv => (hsound.mentions v hv).resolve_left id
  refine .group (fun _ => False) [] ⟨hintact, hnil, hsize, fun v hv => ?_,
    fun _ hv => hv.elim, .refl hintact, fun v k hk hv => ?_⟩
    (by simp)
    ⟨rfl, fun _ he => absurd he List.not_mem_nil, hchain, hsound.types, fun e he h hh => ?_⟩
    fun _ he => absurd he List.not_mem_nil
  · obtain ⟨hle, hlt⟩ := hrange v (hv.resolve_left id)
    exact ⟨hs.lone hu hlt, hle⟩
  · have hroot : (p.start config).state.store.root v = v := hs.root v
    rw [hroot] at hv
    obtain ⟨k', hk', hpos⟩ := hdeep v (Nat.not_lt.mp hv) (lt_of_rank? hk)
    cases hk.symm.trans hk'
    exact hpos
  · obtain ⟨hlt, hheader⟩ := hclosed e he
    obtain ⟨hover, hvars⟩ := hheader h hh
    have hold : ∀ v ∈ h.2.vars, v < p.initialSize := fun v hv => hlt v (hvars v hv)
    refine ⟨hover.restrict fun v hv => ⟨(hold v hv).trans_le hsize, fun hv' => ?_⟩,
      hs.avoids hu (hover.restrict fun v hv => ⟨(hold v hv).trans_le hsize,
        fun hn => hn (hvars v hv)⟩)⟩
    exact absurd (hold v hv) (Nat.not_lt.mpr (hrange v (hv'.resolve_left id)).1)

theorem finished_of_solve (hnil : env.aliases = []) (hsorted : env.Sorted)
    (h : ofProgram program env = .ok p) {fuel : Nat} {config : Config}
    (hstrict : (p.start config).Strictly fuel) {st : Solver}
    (hsolve : p.solve fuel config = .done () st) (herr : st.errors = []) :
    st.store.Intact ∧ st.store.aliases = [] ∧
      ∀ e ∈ st.topLevel, e.2.Finished st.store fun _ => False := by
  obtain ⟨made, hsteps⟩ := Moment.steps_of_solve [] p.store.ranks hsolve
  have hend := Moment.Steps.settling hsteps (settling_start hnil hsorted h config) hstrict herr
  rw [Moment.Settling, Moment.layers, layers] at hend
  generalize hLs : ([] : List Layer) = Ls at hend
  cases hend with
  | done hs hnil htop => exact ⟨hs, hnil, htop⟩
  | group => simp at hLs

end Prepared

/-! ## A run that keeps every guard -/

namespace Moment

def twoFields : Program where
  groups := [
    ⟨[{ name := "get", params := [⟨{}, .var "r"⟩], span := {},
        body := ⟨0, {}, .list [⟨1, {}, .access ⟨2, {}, .var "r"⟩ "x"⟩,
          ⟨3, {}, .access ⟨4, {}, .var "r"⟩ "y"⟩]⟩ }]⟩]

def twoFieldsPrepared : Prepared where
  context := []
  constraint := .letIn [0] [("get", .var 0)] (.recursive [("get", .var 0)] (.conj [.checkpoint {},
    .letIn [3] [("r", .var 3)] (.equal (.var 1) (.var 3) {})
      (.conj [.instanceOf "r" (.record [("x", .var 4)] (some 5)) {},
        .instanceOf "r" (.record [("y", .var 4)] (some 6)) {},
        .equal (.var 2) (.list (.var 4)) {}]),
    .equal (.var 0) (.func (.var 1) (.var 2)) {}])) .trivial
  nodeTypes := [(0, .var 2), (1, .var 4), (2, .record [("x", .var 4)] (some 5)), (3, .var 4),
    (4, .record [("y", .var 4)] (some 6))]
  initialSize := 0
  store := { slots := ⟨[1, 1, 1, 2, 1, 1, 1].map fun rank => .root (.unbound rank none)⟩ }

theorem twoFields_prepared : Prepared.ofProgram twoFields {} = .ok twoFieldsPrepared := by cbv

/-- The store when the first `k` demands on types have been met. -/
def twoFieldsStore (k : Nat) : Store where
  slots := #[if k < 5 then free else .root (.bound (.func (.var 1) (.var 2))), .link 3,
    if k < 4 then free else .root (.bound (.list (.var 4))),
    if k < 2 then free else .root (.bound (.record [("x", .var 4)] (some 5))), free,
    if k < 3 then free else .root (.bound (.record [("y", .var 4)] (some 7))),
    if k < 3 then free else .root (.bound (.record [("x", .var 4)] (some 7)))] ++
    if k < 3 then #[] else #[free]
where free : Slot := .root (.unbound 1 none)

/-- What follows the fields of the two records is new. -/
theorem twoFields_tails (g : Guard) : Runs g 16 (.tails 6 5 1 [("y", .var 4)] [("x", .var 4)])
    (twoFieldsStore 2) (.unified (twoFieldsStore 3)) := by
  have hleft : ((twoFieldsStore 2).fresh 1 none).2.adopt 3 6 1 (.record [("x", .var 4)] (some 7))
      (fun s => s.put 6 (.bound (.record [("x", .var 4)] (some 7)))) =
      .unified (((twoFieldsStore 2).fresh 1 none).2.put 6
        (.bound (.record [("x", .var 4)] (some 7)))) := by cbv
  have hright : (((twoFieldsStore 2).fresh 1 none).2.put 6
      (.bound (.record [("x", .var 4)] (some 7)))).adopt 3 5 1 (.record [("y", .var 4)] (some 7))
      (fun s => s.put 5 (.bound (.record [("y", .var 4)] (some 7)))) =
      .unified (twoFieldsStore 3) := by cbv
  exact Rule.tails rfl (Rule.bind (a := 6) rfl rfl hleft Outcome.noConfusion)
    (Rule.bind (a := 5) rfl rfl hright Outcome.noConfusion)

theorem twoFields_guarded (g : Guard) : (twoFieldsPrepared.start {}).Guarded g 20 := by
  refine .of_idle .enter id (.of_idle .enter id (.of_idle .trivial id (.of_idle .leave id
    (.of_idle .conj id (.of_idle .checkpoint id (.of_idle .enter id ?_))))))
  refine .of_equal (twoFieldsStore 1) rfl ?_ (.of_idle .leave id (.of_idle .conj id ?_))
  · have hmerge : RootsRule g (Runs g 18) 1 3 twoFieldsPrepared.store
        (.unified (twoFieldsStore 1)) :=
      @RootsRule.merge _ _ 1 3 twoFieldsPrepared.store 1 2 none none (by decide) rfl rfl
    exact Runs.keeps (Rule.varVar (Rule.vars rfl rfl hmerge))
  refine .of_instance (twoFieldsStore 1) (twoFieldsStore 2) rfl rfl rfl rfl ?_ ?_
  · exact Runs.keeps (o := .unified (twoFieldsStore 2))
      (Rule.varRight rfl (Rule.bind (k := 3) rfl rfl rfl Outcome.noConfusion))
  refine .of_instance (twoFieldsStore 2) (twoFieldsStore 3) rfl rfl rfl rfl ?_ ?_
  · exact Runs.keeps (o := .unified (twoFieldsStore 3)) (Rule.varRight rfl (Rule.bound
      (o := .unified (twoFieldsStore 3)) rfl rfl (Rule.settled (k := 2) rfl rfl
        (.record (k := 3) rfl rfl (Rule.rows .nil (.openBoth (v := 6) (w := 5) (by decide) rfl rfl rfl
          (twoFields_tails g)))))))
  refine .of_equal (twoFieldsStore 4) rfl ?_ (.of_idle .restore id (.of_idle .restore id ?_))
  · exact Runs.keeps (o := .unified (twoFieldsStore 4))
      (Rule.varLeft rfl (Rule.bind (k := 3) rfl rfl rfl Outcome.noConfusion))
  refine .of_equal (twoFieldsStore 5) (by cbv) ?_ (.of_idle .restore id (.of_idle .restore id
    (.of_idle .leave id (.of_idle .trivial id (.of_idle .restore id (.of_done rfl))))))
  have hadopt : (twoFieldsStore 4).adopt 8 0 1 (.func (.var 1) (.var 2))
      (fun s => s.put 0 (.bound (.func (.var 1) (.var 2)))) = .unified (twoFieldsStore 5) := by cbv
  have hbind : Runs g 19 (.var .left 0 (.func (.var 1) (.var 2))) (twoFieldsStore 4)
      (.unified (twoFieldsStore 5)) := Rule.bind (a := 0) rfl rfl hadopt Outcome.noConfusion
  have hruns : Runs g 20 (.types (.var 0) (.func (.var 1) (.var 2))) (twoFieldsStore 4)
      (.unified (twoFieldsStore 5)) := Rule.varLeft rfl hbind
  exact hruns.keeps

end Moment
end TypeSolver
