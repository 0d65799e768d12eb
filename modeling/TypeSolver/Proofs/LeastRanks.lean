import TypeSolver.Proofs.Traces

/-!
# TypeSolver.Proofs.LeastRanks

Ranks after a run on first-order types. The rank of an unbound class is the least that a class
leading to it had at first. This is seen on derivations, where binding a class hands its rank on to
what its tree mentions (`Unifies.leadsTo`), and holds of runs because runs are derivations
(`Runs.least`). So a run refines its store, and no rank sinks further than it has to
(`Runs.distills`).
-/

namespace TypeSolver

open Meaning

section Least

variable {i i1 i' : Tags} {θ θ' τ : Valuation} {ws : Pairs} {a r : Var} {t m : Meaning}

/-- Behind the substitution `τ`, an unbound class has the least rank of the classes whose trees
mention it. -/
structure Tags.Least (i : Tags) (τ : Valuation) (i' : Tags) : Prop where
  le : ∀ v c r c', i v = some c → (τ v).Mentions r → i' r = some c' → c'.rank ≤ c.rank
  attained : ∀ r c', i' r = some c' → ∃ v c, i v = some c ∧ (τ v).Mentions r ∧ c.rank = c'.rank

def Tags.Live (i : Tags) (r : Var) : Prop := ∃ c, i r = some c

theorem Tags.Binds.live (h : i.Binds a t i1) (ha : i.Live a) (hr : i.Live r) (hra : r ≠ a) :
    i1.Live r := by
  obtain ⟨d, hd⟩ := ha
  obtain ⟨c, hc⟩ := hr
  by_cases hmen : t.Mentions r
  · exact ⟨_, by rw [h.sunk r hmen, hc, hd]; rfl⟩
  · exact ⟨c, by rw [h.kept r hra hmen, hc]⟩

theorem Meaning.not_mentions_single (hn : ¬ t.Mentions a) :
    ¬ (m.subst (single a t)).Mentions a := by
  intro h
  obtain ⟨x, _, hx⟩ := exists_mentions_of_subst h
  by_cases hxa : x = a
  · subst hxa
    rw [single_self] at hx
    exact hn hx
  · rw [single_of_ne hxa, mentions_var] at hx
    exact hxa hx

theorem Tags.Binds.live_single (h : i.Binds a t i1) (hn : ¬ t.Mentions a) (ha : i.Live a)
    (ht : t.Within i.Live) (hws : ws.Within i.Live) :
    Pairs.Within i1.Live (ws.subst (single a t)) := by
  intro w hw
  obtain ⟨q, hq, rfl⟩ := List.mem_map.mp hw
  refine ⟨fun r hr => h.live ha ?_ ?_, fun r hr => h.live ha ?_ ?_⟩
  · exact (hws q hq).1.single ht r hr
  · rintro rfl; exact not_mentions_single hn hr
  · exact (hws q hq).2.single ht r hr
  · rintro rfl; exact not_mentions_single hn hr

theorem Tags.Binds.least (h : i.Binds a t i1) (hp : t.Plain) (ha : i.Live a) (ht : t.Within i.Live)
    (hleast : i1.Least τ i') : i.Least (fun v => (single a t v).subst τ) i' := by
  obtain ⟨d, hd⟩ := ha
  have hsunk : ∀ x c, t.Mentions x → i x = some c → i1 x = some (c.sunk t.isVar d) :=
    fun x c hx hc => by rw [h.sunk x hx, hc, hd]; rfl
  have hother : ∀ x, x ≠ a → (single a t x).subst τ = τ x := fun x hx => by
    rw [single_of_ne hx, Meaning.subst]
  refine ⟨fun v c r c' hv hr hc' => ?_, fun r c' hc' => ?_⟩
  · by_cases hva : v = a
    · subst hva
      cases hd.symm.trans hv
      rw [single_self] at hr
      obtain ⟨x, hx, hr⟩ := exists_mentions_of_subst hr
      obtain ⟨e, he⟩ := ht x hx
      exact (hleast.le x _ r c' (hsunk x e hx he) hr hc').trans (Nat.min_le_right _ _)
    · rw [hother v hva] at hr
      by_cases hmen : t.Mentions v
      · exact (hleast.le v _ r c' (hsunk v c hmen hv) hr hc').trans (Nat.min_le_left _ _)
      · exact hleast.le v c r c' (by rw [h.kept v hva hmen, hv]) hr hc'
  · obtain ⟨v, c, hv, hr, hrank⟩ := hleast.attained r c' hc'
    have hva : v ≠ a := by rintro rfl; rw [h.gone] at hv; cases hv
    by_cases hmen : t.Mentions v
    · obtain ⟨e, he⟩ := ht v hmen
      cases (hsunk v e hmen he).symm.trans hv
      rcases Nat.le_total e.rank d.rank with hle | hle
      · exact ⟨v, e, he, by rwa [hother v hva], hrank ▸ (Nat.min_eq_left hle).symm⟩
      · refine ⟨a, d, hd, ?_, hrank ▸ (Nat.min_eq_right hle).symm⟩
        rw [single_self]
        exact hp.mentions_subst hmen hr
    · rw [h.kept v hva hmen] at hv
      exact ⟨v, c, hv, by rwa [hother v hva], hrank⟩

/-- What a derivation does to trees is a substitution, and behind it all ranks are least ranks. -/
def LeadsTo (V : Var → Prop) (i : Tags) (θ : Valuation) (i' : Tags) (θ' : Valuation) : Prop :=
  ∃ τ, (∀ v, V v → θ' v = (θ v).subst τ) ∧ i.Least τ i'

theorem Tags.Binds.leadsTo {V : Var → Prop} (h : i.Binds a t i1) (hp : t.Plain) (ha : i.Live a)
    (ht : t.Within i.Live) (hθ : ∀ v, V v → (θ v).Plain)
    (hrest : LeadsTo V i1 (fun v => (θ v).subst (single a t)) i' θ') : LeadsTo V i θ i' θ' := by
  obtain ⟨τ, hτ, hleast⟩ := hrest
  exact ⟨_, fun v hv => by rw [hτ v hv, (hθ v hv).subst_subst], h.least hp ha ht hleast⟩

theorem Unifies.leadsTo {V : Var → Prop} (h : Unifies i θ ws i' θ') (hp : ws.Plain)
    (hws : ws.Within i.Live) (hθ : ∀ v, V v → (θ v).Plain) : LeadsTo V i θ i' θ' := by
  induction h with
  | @done i θ =>
    refine ⟨.var, fun v hv => ((hθ v hv).subst_var).symm, ?_,
      fun r c' hc' => ⟨r, c', hc', .var, rfl⟩⟩
    intro v c r c' hv hr hc'
    obtain rfl := mentions_var.mp hr
    cases hv.symm.trans hc'
    exact le_rfl
  | same _ ih => exact ih (Pairs.plain_cons.mp hp).2 (Pairs.within_cons.mp hws).2 hθ
  | left hn hb _ ih =>
    obtain ⟨⟨_, ht⟩, hp⟩ := Pairs.plain_cons.mp hp
    obtain ⟨⟨ha, htw⟩, hws⟩ := Pairs.within_cons.mp hws
    have ha := within_var.mp ha
    exact hb.leadsTo ht ha htw hθ (ih (hp.single ht) (hb.live_single hn ha htw hws)
      fun v hv => (hθ v hv).subst fun x _ => ht.single x)
  | right _ hn hb _ ih =>
    obtain ⟨⟨ht, _⟩, hp⟩ := Pairs.plain_cons.mp hp
    obtain ⟨⟨htw, ha⟩, hws⟩ := Pairs.within_cons.mp hws
    have ha := within_var.mp ha
    exact hb.leadsTo ht ha htw hθ (ih (hp.single ht) (hb.live_single hn ha htw hws)
      fun v hv => (hθ v hv).subst fun x _ => ht.single x)
  | func _ ih => exact ih hp.func hws.func hθ
  | app _ _ ih => exact ih hp.app hws.app hθ

end Least

namespace Store

variable {s s' : Store} {θ : Valuation} {n : Nat} {c : Call}

theorem exists_tag {v : Var} {k : Rank} (hr : s.root v = v) (hk : s.rank? v = some k) :
    ∃ d, s.tags v = some d ∧ d.rank = k := by
  obtain ⟨hint, hc⟩ := rank?_eq_some.mp hk
  exact ⟨_, tags_of_unbound hr hc, rfl⟩

theorem Traced.least {P : Pairs → Prop} (h : Traced P s θ s') (hs : s.FirstOrder)
    (hθ : s.Reading θ) {ms : Pairs} (hms : P ms) (hlive : s.LivePairs ms) :
    ∃ θ', s'.Reading θ' ∧ s.tags.Least θ' s'.tags := by
  obtain ⟨θ', hθ', _, htrace⟩ := h
  have hder := htrace ms hms [] s'.tags θ' (by simp [LivePairs]) .done
  rw [List.append_nil] at hder
  obtain ⟨τ, hτ, hleast⟩ := hder.leadsTo (V := (· < s.size))
    (fun w hw => ⟨(hlive w hw).1.plain, (hlive w hw).2.plain⟩)
    (fun w hw => ⟨fun _ => (hlive w hw).1.exists_tag, fun _ => (hlive w hw).2.exists_tag⟩)
    fun v hv => hs.plain_reading hθ hv
  have heq : ∀ v c, s.tags v = some c → θ' v = τ v := fun v c hv => by
    obtain ⟨hroot, hk, hrank⟩ := of_tags hv
    rw [hτ v (lt_of_rank? hrank), hθ.free v hk, hroot, Meaning.subst]
  refine ⟨θ', hθ', fun v c r c' hv hr => hleast.le v c r c' hv (heq v c hv ▸ hr),
    fun r c' hc' => ?_⟩
  obtain ⟨v, c, hv, hr, hrank⟩ := hleast.attained r c' hc'
  exact ⟨v, c, hv, heq v c hv ▸ hr, hrank⟩

theorem FirstOrder.exists_pair (hs : s.FirstOrder) (hθ : s.Reading θ) {l r : Ty}
    (hc : (Call.types l r).FirstOrder s.aliases) (hfit : (Call.types l r).Fits s.size) :
    ∃ w, Sides s.aliases θ (l, r) w ∧ s.Live w.1 ∧ s.Live w.2 := by
  obtain ⟨ml, hl⟩ := hs.usable.exists_denotes θ l
  obtain ⟨mr, hr⟩ := hs.usable.exists_denotes θ r
  exact ⟨(ml, mr), ⟨hl, hr⟩, hs.live hθ hfit.1 hc.1 hl, hs.live hθ hfit.2 hc.2 hr⟩

theorem FirstOrder.exists_sides (hs : s.FirstOrder) (hθ : s.Reading θ)
    (hc : c.FirstOrder s.aliases) (hfit : c.Fits s.size) :
    ∃ ms, c.Sides s.aliases θ ms ∧ s.LivePairs ms := by
  have hvar : ∀ {v}, v < s.size → (Ty.var v).Fits s.size := fun h => Ty.over_var.mpr h
  cases c with
  | types l r =>
    obtain ⟨w, hw, hlive⟩ := hs.exists_pair hθ hc hfit
    exact ⟨[w], ⟨w, rfl, hw⟩, by simp [LivePairs, hlive]⟩
  | vars v w =>
    obtain ⟨⟨ml, mr⟩, ⟨hl, hr⟩, hlive⟩ :=
      hs.exists_pair hθ ⟨.var, .var⟩ ⟨hvar hfit.1, hvar hfit.2⟩
    cases hl
    cases hr
    exact ⟨_, rfl, by simp [LivePairs, hlive]⟩
  | var side v t =>
    obtain ⟨⟨ml, mr⟩, ⟨hl, hr⟩, hlive⟩ := hs.exists_pair hθ ⟨.var, hc.1⟩ ⟨hvar hfit.1, hfit.2⟩
    cases hl
    cases side with
    | left => exact ⟨_, ⟨mr, rfl, hr⟩, by simp [LivePairs, hlive]⟩
    | right => exact ⟨_, ⟨mr, rfl, hr⟩, by simp [LivePairs, hlive]⟩
  | terms l r =>
    obtain ⟨w, hw, hlive⟩ := hs.exists_pair hθ ⟨hc.1.1, hc.2.1⟩ hfit
    exact ⟨[w], ⟨w, rfl, hw⟩, by simp [LivePairs, hlive]⟩
  | rows => exact hc.elim
  | tails => exact hc.elim

variable (h : Runs .any n c s (.unified s'))

include h

theorem Runs.least (hs : s.FirstOrder) (hc : c.FirstOrder s.aliases) (hfit : c.Fits s.size) :
    ∃ θ', s'.Reading θ' ∧ s.tags.Least θ' s'.tags := by
  obtain ⟨θ, hθ⟩ := hs.exists_reading
  obtain ⟨ms, hms, hlive⟩ := hs.exists_sides hθ hc hfit
  exact (h.traced hs hc hfit hθ).least hs hθ hms hlive

theorem Runs.distills (hs : s.FirstOrder) (hc : c.FirstOrder s.aliases) (hfit : c.Fits s.size) :
    Distills s s' := by
  obtain ⟨hs', hsize, hal⟩ := (h.faithful hs hc hfit).keeps s' rfl
  have hsolved : ∀ θ, s'.SolvedBy θ → s.SolvedBy θ := fun θ hθ =>
    ((h.strict hs hc hfit).sound hs.toIntact hfit s' rfl hs.toIntact θ hθ).1
  obtain ⟨θ, hθ, hleast⟩ := h.least hs hc hfit
  have hmentions : ∀ v r, v < s.size → ((θ v).Mentions r ↔ s'.Reaches v r ∧ s'.kind r = .free) :=
    fun v r hv => hs'.mentions_iff hθ (hsize.symm ▸ hv)
  refine ⟨⟨hs', hsize.ge, hal, hsolved, fun v k r k' hv hr hk' => ?_⟩, fun r k hk => ?_⟩
  · obtain ⟨d, hd, rfl⟩ := exists_tag (hs.forest.root_root v) ((rank?_root hs.forest v).trans hv)
    obtain ⟨d', hd', rfl⟩ := exists_tag (hr.root_eq hs'.forest) hk'
    refine hleast.le _ d r d' hd ?_ hd'
    rw [(hsolved θ hθ.toSolvedBy).root, hmentions v r (lt_of_rank? hv)]
    exact ⟨hr, kind_eq_free_iff_rank?.mpr ⟨_, hk'⟩⟩
  · obtain ⟨d, hd, rfl⟩ := exists_tag (hs'.forest.root_root r) ((rank?_root hs'.forest r).trans hk)
    obtain ⟨v, e, he, hmen, hrank⟩ := hleast.attained _ d hd
    have hv := (of_tags he).2.2
    exact ⟨v, hrank ▸ hv, ((hmentions v _ (lt_of_rank? hv)).mp hmen).1⟩

theorem Runs.refines (hs : s.FirstOrder) (hc : c.FirstOrder s.aliases) (hfit : c.Fits s.size) :
    Refines s s' :=
  (h.distills hs hc hfit).toRefines

end Store
end TypeSolver
