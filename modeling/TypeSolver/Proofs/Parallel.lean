import TypeSolver.Proofs.Elaboration

/-!
# TypeSolver.Proofs.Parallel

Two runs over the groups of two programs. A group of the first program is a group of the second with
other names for its variables (`Part`). As long as the names that groups ask for have the same types
in both runs, a group that the first run solves can be solved by the second, and its names get the
same types (`InStep.step`). A run that does not move is not disturbed by the other, and so the
second run may take two groups in the other order, if neither asks for a name of the other
(`InStep.swap`).
-/

namespace TypeSolver

open Meaning

namespace Store

variable {s s' o : Store} {θ θ' τ : Valuation} {D E own own' : Var → Prop}

theorem Reads.of_tags (h : s.Reads θ) {v : Var} {c : Tag} (hc : s.tags v = some c) :
    θ v = .var v ∧ v < s.size := by
  obtain ⟨hroot, hfree, _⟩ := Store.of_tags hc
  exact ⟨by rw [h.reading.free v hfree, hroot], lt_of_kind (by simp [hfree])⟩

namespace Region

theorem refl (h : s.Reads θ) (h' : s.Reads θ') : Region s θ own (fun _ => False) s θ' :=
  ⟨h', le_rfl, fun _ hv => hv.elim, fun _ hv => hv.elim, fun _ _ _ => rfl,
    fun _ hv _ => h.reading.unique h'.reading h.firstOrder hv⟩

theorem trans (h : Region o τ own D s θ) (h' : Region s θ own' E s' θ') :
    Region o τ (fun v => own v ∨ own' v) (fun v => D v ∨ E v) s' θ' := by
  refine ⟨h'.toReads, h.size_le.trans h'.size_le, ?_, ?_, fun r hr hn => ?_, fun v hv hav => ?_⟩
  · rintro v (hv | hv)
    · exact (h.lt v hv).trans_le h'.size_le
    · exact h'.lt v hv
  · rintro v (hv | hv) hlt
    · exact .inl (h.old v hv hlt)
    · exact .inr (h'.old v hv (hlt.trans_le h.size_le))
  · rw [h'.tags r (hr.trans_le h.size_le) fun hr => hn (.inr hr),
      h.tags r hr fun hr => hn (.inl hr)]
  · have heq := h.trees v hv fun r hr hD => hav r hr (.inl hD)
    rw [h'.trees v (hv.trans_le h.size_le) fun r hr hE => hav r (heq ▸ hr) (.inr hE), heq]

theorem mono (h : Region o τ own D s θ) (hown : ∀ v, own v → own' v) : Region o τ own' D s θ :=
  { h with old := fun v hv hlt => hown v (h.old v hv hlt) }

end Region

/-- The variables `Q` are unbound classes of their own, inside the boundary that they were made for,
with the ranks and hints of `i`. -/
def Pending (i : Tags) (Q : Var → Prop) (s : Store) : Prop :=
  ∀ v, Q v → ∃ c, i v = some c ∧ s.tags v = some c ∧ 0 < c.rank

/-- What a group does not own stays as it was made. -/
theorem Pending.region {i : Tags} {Q Q' : Var → Prop} (h : o.Pending i Q) (ho : o.Reads τ)
    (hr : Region o τ own D s θ) (hQ : ∀ v, Q' v → Q v ∧ ¬ own v) : s.Pending i Q' := by
  intro v hv
  obtain ⟨hQv, hown⟩ := hQ v hv
  obtain ⟨c, hi, hc, hrank⟩ := h v hQv
  have hlt := (ho.of_tags hc).2
  exact ⟨c, hi, by rw [hr.tags v hlt fun hD => hown (hr.old v hD hlt), hc], hrank⟩

end Store

namespace Twins

open Store (Region)

/-! ## A group in two programs -/

/-- A group of one program, with the variables that were made for it and the names that they have in
another program. -/
structure Part where
  scheme : Scheme
  own : Var → Prop
  names : Var → Var

namespace Part

def twin (p : Part) : Scheme := p.scheme.renamed p.names

def named (p : Part) : Var → Prop := Image p.own p.names

/-- The group makes first-order demands on its own variables. They have ranks and hints as in `i`,
and in the other program, as in `j`, the same. -/
structure Sound (i j : Tags) (p : Part) : Prop where
  types : p.scheme.qualifier.Types (Ty.FirstOrder [])
  mentions : ∀ v, p.scheme.qualifier.Mentions v → p.own v
  header : ∀ e ∈ p.scheme.header, e.2.FirstOrder [] ∧ ∀ v ∈ e.2.vars, p.own v
  inj : ∀ a b, p.own a → p.own b → p.names a = p.names b → a = b
  tags : ∀ v, p.own v → j (p.names v) = i v

/-- The group as it is met in two stores. -/
def origin (p : Part) (s1 : Store) (θ1 : Valuation) (s2 : Store) (θ2 : Valuation) : Origin :=
  ⟨p.own, p.names, s1, θ1, s2, θ2⟩

end Part

variable {i j : Tags} {p : Part} {s1 s2 s1' s2' : Store} {θ1 θ2 θ1' θ2' : Valuation}
  {D : Var → Prop} {π : Var → Var}

theorem start (hp : p.Sound i j) (h1 : s1.Reads θ1) (h2 : s2.Reads θ2) (hw1 : s1.Pending i p.own)
    (hw2 : s2.Pending j p.named) :
    Twins (p.origin s1 θ1 s2 θ2) p.own p.names s1 θ1 s2 θ2 := by
  have hleft : ∀ v, p.own v →
      ∃ c, s1.tags v = some c ∧ s2.tags (p.names v) = some c ∧ 0 < c.rank := by
    intro v hv
    obtain ⟨c, hi, hc, hrank⟩ := hw1 v hv
    obtain ⟨d, hj, hd, _⟩ := hw2 (p.names v) ⟨v, hv, rfl⟩
    cases (hp.tags v hv).symm.trans hj |>.symm.trans hi
    exact ⟨c, hc, hd, hrank⟩
  refine ⟨⟨h1, le_rfl, fun v hv => ?_, fun v hv _ => hv, fun _ _ _ => rfl, fun _ _ _ => rfl⟩,
    ⟨h2, le_rfl, fun x hx => ?_, fun x hx _ => hx, fun _ _ _ => rfl, fun _ _ _ => rfl⟩,
    ⟨hp.inj, fun v hv => ?_, fun v hv => ?_, fun v hv => ?_, fun v hv => ?_⟩,
    fun v hv => ⟨hv, rfl⟩, fun v c hv hc => ?_⟩
  · obtain ⟨c, hc, _⟩ := hleft v hv
    exact (h1.of_tags hc).2
  · obtain ⟨v, hv, rfl⟩ := hx
    obtain ⟨c, _, hc, _⟩ := hleft v hv
    exact (h2.of_tags hc).2
  · obtain ⟨c, hc, hd, _⟩ := hleft v hv
    rw [hc, hd]
  · obtain ⟨c, hc, _⟩ := hleft v hv
    rw [(h1.of_tags hc).1]
    exact .var _
  · obtain ⟨c, hc, _⟩ := hleft v hv
    rw [(h1.of_tags hc).1, within_var]
    exact hv
  · obtain ⟨c, hc, hd, _⟩ := hleft v hv
    rw [(h1.of_tags hc).1, (h2.of_tags hd).1, renamed_var]
  · obtain ⟨d, hd, _, hrank⟩ := hleft v hv
    cases hc.symm.trans hd
    exact hrank

theorem sameOffer {O : Origin} (h : Twins O D π s1 θ1 s2 θ2) {header : Header}
    (hheader : ∀ e ∈ header, e.2.FirstOrder [] ∧ ∀ v ∈ e.2.vars, O.own v) {e : String × Ty}
    (he : e ∈ header) :
    ∃ m, SameOffer s1 θ1 (s1.generalizable header 0) e.2 s2 θ2
      (s2.generalizable (Assoc.mapValues (Ty.renamed O.names) header) 0) (e.2.renamed O.names) m π ∧
      m.Plain ∧ m.Within D := by
  obtain ⟨hft, hown⟩ := hheader e he
  obtain ⟨m, hp⟩ := h.paired hft hown
  have hlt : ∀ e ∈ header, ∀ v ∈ e.2.vars, v < s1.size := fun e he v hv =>
    h.left.lt v (h.own v ((hheader e he).2 v hv)).1
  have hclosed : ∀ r, m.Mentions r → r ∈ s1.generalizable header 0 := fun r hr => by
    obtain ⟨v, hv, hmen⟩ := (hp.firstOrder.1.mentions_iff hp.left).mp hr
    obtain ⟨c, hc⟩ := (h.left.toReads.live hp.firstOrder.1 hp.fits.1 hp.left).exists_tag hr
    exact (h.left.toReads.mem_generalizable hlt).mpr
      ⟨e, he, v, hv, hmen, c, hc, h.inside r c (hp.within r hr) hc⟩
  have htag : ∀ r, m.Mentions r → ∃ c, s1.tags r = some c ∧ s2.tags (π r) = some c := fun r hr => by
    obtain ⟨c, hc⟩ := (h.left.toReads.live hp.firstOrder.1 hp.fits.1 hp.left).exists_tag hr
    exact ⟨c, hc, by rw [h.twin.tags r (hp.within r hr), hc]⟩
  refine ⟨m, ⟨⟨hp.left, hp.firstOrder.1, hp.fits.1, fun r hr => ?_⟩,
    ⟨hp.right, hp.firstOrder.2, hp.fits.2, fun x hx => ?_⟩,
    fun a b ha hb => h.twin.inj a b (hp.within a ha) (hp.within b hb),
    fun r hr => by rw [h.twin.tags r (hp.within r hr)]⟩, hp.plain, hp.within⟩
  · obtain ⟨c, hc, _⟩ := htag r hr
    exact List.mem_map.mpr ⟨r, hclosed r hr, (Store.of_tags hc).1⟩
  · obtain ⟨r, hr, rfl⟩ := hp.plain.mentions_renamed.mp hx
    obtain ⟨c, _, hc⟩ := htag r hr
    exact List.mem_map.mpr ⟨π r, ((h.mem_generalizable_iff hheader 0).2 _).mpr
      ⟨r, hclosed r hr, rfl⟩, (Store.of_tags hc).1⟩

namespace SameOffer

variable {qs1 qs2 : List Var} {t1 t2 : Ty} {m : Meaning} {ρ : Var → Var} {own : Var → Prop}

theorem moveLeft (h : SameOffer s1 θ1 qs1 t1 s2 θ2 qs2 t2 m ρ) (h1 : s1.Reads θ1)
    (hr : Region s1 θ1 own D s1' θ1') (hav : m.Avoids own) :
    SameOffer s1' θ1' qs1 t1 s2 θ2 qs2 t2 m ρ := by
  obtain ⟨hleft, htags⟩ := hr.quantified h1 h.left hav
  exact ⟨hleft, h.right, h.inj, fun r hr => by rw [htags r hr, h.hints r hr]⟩

theorem moveRight (h : SameOffer s1 θ1 qs1 t1 s2 θ2 qs2 t2 m ρ) (h1 : s1.Reads θ1)
    (h2 : s2.Reads θ2) (hr : Region s2 θ2 own D s2' θ2') (hav : (m.renamed ρ).Avoids own) :
    SameOffer s1 θ1 qs1 t1 s2' θ2' qs2 t2 m ρ := by
  obtain ⟨hright, htags⟩ := hr.quantified h2 h.right hav
  have hplain := (h1.live h.left.firstOrder h.left.fits h.left.denotes).plain
  exact ⟨h.left, hright, h.inj, fun r hr => by
    rw [htags _ (hplain.mentions_renamed.mpr ⟨r, hr, rfl⟩), h.hints r hr]⟩

end SameOffer

/-! ## Two runs -/

def Owned (ps : List Part) (v : Var) : Prop := ∃ p ∈ ps, p.own v

def Named (ps : List Part) (x : Var) : Prop := ∃ p ∈ ps, p.named x

def Defines (ps : List Part) (name : String) : Prop := ∃ p ∈ ps, name ∈ Assoc.keys p.scheme.header

variable {ps qs : List Part} {v x : Var} {name : String}

theorem owned_cons : Owned (p :: ps) v ↔ p.own v ∨ Owned ps v := by
  simp [Owned]

theorem named_cons : Named (p :: ps) x ↔ p.named x ∨ Named ps x := by
  simp [Named]

theorem owned_append : Owned (ps ++ qs) v ↔ Owned ps v ∨ Owned qs v := by
  simp [Owned, or_and_right, exists_or]

theorem named_append : Named (ps ++ qs) x ↔ Named ps x ∨ Named qs x := by
  simp [Named, or_and_right, exists_or]

theorem exists_scheme_iff :
    (∃ scheme ∈ ps.map Part.scheme, name ∈ Assoc.keys scheme.header) ↔ Defines ps name := by
  simp [Defines]

/-- In the other program, the groups have the same names. -/
theorem exists_twin_iff :
    (∃ scheme ∈ ps.map Part.twin, name ∈ Assoc.keys scheme.header) ↔ Defines ps name := by
  simp [Defines, Part.twin, Scheme.renamed]

/-- Groups of two programs. No variable was made for two of them. -/
structure Parts (i j : Tags) (ps : List Part) : Prop where
  sound : ∀ p ∈ ps, p.Sound i j
  apart : ps.Pairwise fun p q => (∀ v, p.own v → ¬ q.own v) ∧ ∀ x, p.named x → ¬ q.named x

namespace Parts

variable {ps qs : List Part}

theorem append (hps : Parts i j ps) (hqs : Parts i j qs) (hown : ∀ v, Owned ps v → ¬ Owned qs v)
    (hnamed : ∀ x, Named ps x → ¬ Named qs x) : Parts i j (ps ++ qs) := by
  refine ⟨fun p hp => ?_, List.pairwise_append.mpr ⟨hps.apart, hqs.apart, fun p hp q hq => ?_⟩⟩
  · exact (List.mem_append.mp hp).elim (hps.sound p) (hqs.sound p)
  · exact ⟨fun v hv hv' => hown v ⟨p, hp, hv⟩ ⟨q, hq, hv'⟩,
      fun x hx hx' => hnamed x ⟨p, hp, hx⟩ ⟨q, hq, hx'⟩⟩

theorem of_append (h : Parts i j (ps ++ qs)) : Parts i j ps ∧ Parts i j qs ∧
    (∀ v, Owned ps v → ¬ Owned qs v) ∧ ∀ x, Named ps x → ¬ Named qs x := by
  obtain ⟨hps, hqs, hcross⟩ := List.pairwise_append.mp h.apart
  refine ⟨⟨fun p hp => h.sound p (List.mem_append_left _ hp), hps⟩,
    ⟨fun q hq => h.sound q (List.mem_append_right _ hq), hqs⟩, ?_, ?_⟩
  · rintro v ⟨p, hp, hv⟩ ⟨q, hq, hv'⟩
    exact (hcross p hp q hq).1 v hv hv'
  · rintro x ⟨p, hp, hx⟩ ⟨q, hq, hx'⟩
    exact (hcross p hp q hq).2 x hx hx'

end Parts

/-- Groups whose variables were made one after another, from `n` to `n'` in the one program and from
`k` to `k'` in the other. -/
structure Spans (i j : Tags) (ps : List Part) (n n' k k' : Nat) : Prop extends Parts i j ps where
  le : n ≤ n' ∧ k ≤ k'
  owned : ∀ v, Owned ps v → n ≤ v ∧ v < n'
  named : ∀ x, Named ps x → k ≤ x ∧ x < k'

namespace Spans

variable {ps qs : List Part} {n n' n'' k k' k'' : Nat}

theorem nil (n k : Nat) : Spans i j [] n n k k := by
  refine ⟨⟨nofun, .nil⟩, ⟨le_rfl, le_rfl⟩, ?_, ?_⟩
  · rintro v ⟨p, hp, _⟩
    cases hp
  · rintro x ⟨p, hp, _⟩
    cases hp

theorem single (hp : p.Sound i j) (hle : n ≤ n' ∧ k ≤ k') (hown : ∀ v, p.own v → n ≤ v ∧ v < n')
    (hnamed : ∀ x, p.named x → k ≤ x ∧ x < k') : Spans i j [p] n n' k k' := by
  refine ⟨⟨fun q hq => ?_, List.pairwise_singleton ..⟩, hle, ?_, ?_⟩
  · rw [List.mem_singleton.mp hq]
    exact hp
  · rintro v ⟨q, hq, hv⟩
    rw [List.mem_singleton.mp hq] at hv
    exact hown v hv
  · rintro x ⟨q, hq, hx⟩
    rw [List.mem_singleton.mp hq] at hx
    exact hnamed x hx

omit i j in
theorem between {P Q : Nat → Prop} (hle : n ≤ n') (hle' : n' ≤ n'') (hP : ∀ v, P v → n ≤ v ∧ v < n')
    (hQ : ∀ v, Q v → n' ≤ v ∧ v < n'') :
    (∀ v, P v → ¬ Q v) ∧ ∀ v, P v ∨ Q v → n ≤ v ∧ v < n'' := by
  refine ⟨fun v hp hq => ?_, fun v hv => ?_⟩
  · exact absurd (hP v hp).2 (Nat.not_lt.mpr (hQ v hq).1)
  · rcases hv with hv | hv
    · exact ⟨(hP v hv).1, Nat.lt_of_lt_of_le (hP v hv).2 hle'⟩
    · exact ⟨hle.trans (hQ v hv).1, (hQ v hv).2⟩

theorem append (hps : Spans i j ps n n' k k') (hqs : Spans i j qs n' n'' k' k'') :
    Spans i j (ps ++ qs) n n'' k k'' := by
  obtain ⟨hown, howned⟩ := between hps.le.1 hqs.le.1 hps.owned hqs.owned
  obtain ⟨hname, hnamed⟩ := between hps.le.2 hqs.le.2 hps.named hqs.named
  exact ⟨hps.toParts.append hqs.toParts hown hname,
    ⟨hps.le.1.trans hqs.le.1, hps.le.2.trans hqs.le.2⟩, fun v hv => howned v (owned_append.mp hv),
    fun x hx => hnamed x (named_append.mp hx)⟩

/-- The other program has `qs` before `ps`. -/
theorem cross (hps : Spans i j ps n n' k' k'') (hqs : Spans i j qs n' n'' k k') :
    Spans i j (ps ++ qs) n n'' k k'' := by
  obtain ⟨hown, howned⟩ := between hps.le.1 hqs.le.1 hps.owned hqs.owned
  obtain ⟨hname, hnamed⟩ := between hqs.le.2 hps.le.2 hqs.named hps.named
  exact ⟨hps.toParts.append hqs.toParts hown fun x hx hx' => hname x hx' hx,
    ⟨hps.le.1.trans hqs.le.1, hqs.le.2.trans hps.le.2⟩, fun v hv => howned v (owned_append.mp hv),
    fun x hx => hnamed x (named_append.mp hx).symm⟩

end Spans

/-- Two contexts offer the same closed type for a name, over none of the variables `Q1` and `Q2`. -/
def Alike (Q1 Q2 : Var → Prop) (s1 : Store) (θ1 : Valuation) (s2 : Store) (θ2 : Valuation)
    (e1 e2 : List Var × Ty) : Prop :=
  ∃ m ρ, SameOffer s1 θ1 e1.1 e1.2 s2 θ2 e2.1 e2.2 m ρ ∧ m.Avoids Q1 ∧ (m.renamed ρ).Avoids Q2

/-- Two runs have come to stages in which the names `N` have the same types. The variables `Q1` and
`Q2` were made for groups to come. -/
structure InStep (i j : Tags) (Q1 Q2 : Var → Prop) (N : String → Prop) (g1 : Stage)
    (θ1 : Valuation) (g2 : Stage) (θ2 : Valuation) : Prop where
  left : g1.store.Reads θ1
  right : g2.store.Reads θ2
  pendingLeft : g1.store.Pending i Q1
  pendingRight : g2.store.Pending j Q2
  names : ∀ name, N name → ∀ e1, g1.context.find name = some e1 →
    ∃ e2, g2.context.find name = some e2 ∧ Alike Q1 Q2 g1.store θ1 g2.store θ2 e1 e2

def Without (Q own : Var → Prop) (v : Var) : Prop := Q v ∧ ¬ own v

namespace InStep

variable {Q1 Q2 : Var → Prop} {N : String → Prop} {g1 g1' g2 g2' : Stage} {own : Var → Prop}

variable {M : String → Prop} {as bs : List Part}

section

variable (h : InStep i j Q1 Q2 N g1 θ1 g2 θ2)

include h

theorem mono {Q1' Q2' : Var → Prop} (hQ1 : ∀ v, Q1' v → Q1 v) (hQ2 : ∀ x, Q2' x → Q2 x)
    (hM : ∀ name, M name → N name) : InStep i j Q1' Q2' M g1 θ1 g2 θ2 := by
  refine ⟨h.left, h.right, fun v hv => h.pendingLeft v (hQ1 v hv),
    fun x hx => h.pendingRight x (hQ2 x hx), fun name hname e1 he1 => ?_⟩
  obtain ⟨e2, he2, m, ρ, hsame, hav1, hav2⟩ := h.names name (hM name hname) e1 he1
  exact ⟨e2, he2, m, ρ, hsame, fun r hr hv => hav1 r hr (hQ1 r hv),
    fun r hr hv => hav2 r hr (hQ2 r hv)⟩

theorem moveLeft (hr : Region g1.store θ1 own D g1'.store θ1') (hown : ∀ v, own v → Q1 v)
    (hM : ∀ name, M name → N name ∧ g1'.context.find name = g1.context.find name) :
    InStep i j (Without Q1 own) Q2 M g1' θ1' g2 θ2 := by
  refine ⟨hr.toReads, h.right, h.pendingLeft.region h.left hr fun _ hv => hv, h.pendingRight,
    fun name hname e1 he1 => ?_⟩
  obtain ⟨hN, hfind⟩ := hM name hname
  obtain ⟨e2, he2, m, ρ, hsame, hav1, hav2⟩ := h.names name hN e1 (hfind ▸ he1)
  exact ⟨e2, he2, m, ρ, hsame.moveLeft h.left hr fun r hr hv => hav1 r hr (hown r hv),
    fun r hr hv => hav1 r hr hv.1, hav2⟩

theorem moveRight (hr : Region g2.store θ2 own D g2'.store θ2') (hown : ∀ v, own v → Q2 v)
    (hM : ∀ name, M name → N name ∧ g2'.context.find name = g2.context.find name) :
    InStep i j Q1 (Without Q2 own) M g1 θ1 g2' θ2' := by
  refine ⟨h.left, hr.toReads, h.pendingLeft, h.pendingRight.region h.right hr fun _ hv => hv,
    fun name hname e1 he1 => ?_⟩
  obtain ⟨hN, hfind⟩ := hM name hname
  obtain ⟨e2, he2, m, ρ, hsame, hav1, hav2⟩ := h.names name hN e1 he1
  exact ⟨e2, hfind ▸ he2, m, ρ,
    hsame.moveRight h.left h.right hr fun r hr hv => hav2 r hr (hown r hv), hav1,
    fun r hr hv => hav2 r hr hv.1⟩

/-- What is asked of the contexts to solve a group in both. -/
theorem agree (hown : ∀ v, p.own v → Q1 v) (hnamed : ∀ x, p.named x → Q2 x) (hname : N name) :
    Agree (p.origin g1.store θ1 g2.store θ2) D π g1.context g2.context name := by
  intro scheme1 u1 hget htype
  obtain ⟨⟨qs2, u2⟩, he2, m, ρ, hsame, hav1, hav2⟩ := h.names name hname (scheme1.quantifiers, u1)
    (Context.find_eq_some.mpr ⟨scheme1, hget, htype, rfl⟩)
  obtain ⟨scheme2, hget2, htype2, rfl⟩ := Context.find_eq_some.mp he2
  exact ⟨scheme2, u2, hget2, htype2, .outer hsame (fun r hr hv => hav1 r hr (hown r hv))
    fun r hr hv => hav2 r hr (hnamed r hv)⟩

theorem step (hp : p.Sound i j) (hown : ∀ v, p.own v → Q1 v) (hnamed : ∀ x, p.named x → Q2 x)
    (hask : ∀ o ∈ p.scheme.qualifier.unbound [], N o.1)
    (hrun : Solves g1.context 1 p.scheme.qualifier g1.store s1') :
    ∃ s2' θ1' θ2' D D', Solves g2.context 1 p.twin.qualifier g2.store s2' ∧
      Region g1.store θ1 p.own D (g1.after p.scheme s1').store θ1' ∧
      Region g2.store θ2 p.named D' (g2.after p.twin s2').store θ2' ∧
      InStep i j (Without Q1 p.own) (Without Q2 p.named)
        (fun name => N name ∨ name ∈ Assoc.keys p.scheme.header) (g1.after p.scheme s1') θ1'
        (g2.after p.twin s2') θ2' := by
  have hstart := start hp h.left h.right (fun v hv => h.pendingLeft v (hown v hv))
    fun x hx => h.pendingRight x (hnamed x hx)
  obtain ⟨s2', D, π, θ1', θ2', hsolves, ht, _⟩ := hrun.twins (O := p.origin g1.store θ1 g2.store θ2)
    h.left h.right Nat.one_pos hp.types hp.mentions
    (fun o ho => h.agree hown hnamed (hask o ho)) hstart
  have hl1 := ht.left.firstOrder.forest.linksEnd
  have hl2 := ht.right.firstOrder.forest.linksEnd
  have hr1 := Store.generalize_relinked hl1 p.scheme.header 0
  have hr2 := Store.generalize_relinked hl2 p.twin.header 0
  replace ht := ht.relinked hr1 hr2
  refine ⟨s2', θ1', θ2', D, Image D π, hsolves, ht.left, ht.right, ht.left.toReads,
    ht.right.toReads, h.pendingLeft.region h.left ht.left fun _ hv => hv,
    h.pendingRight.region h.right ht.right fun _ hv => hv, fun name hname e1 he1 => ?_⟩
  by_cases hmem : name ∈ Assoc.keys p.scheme.header
  · have hmem' : name ∈ Assoc.keys p.twin.header := by
      rw [Part.twin, Scheme.renamed, Assoc.keys_mapValues]
      exact hmem
    obtain ⟨t, ht1, hfind⟩ := Scheme.find_bind_of_mem s1' g1.context hmem
    obtain ⟨t', ht2, hfind'⟩ := Scheme.find_bind_of_mem s2' g2.context hmem'
    rw [Store.generalize_fst hl1, ← hr1.generalizable hl1] at hfind
    rw [Store.generalize_fst hl2, ← hr2.generalizable hl2] at hfind'
    cases hfind.symm.trans he1
    rw [Part.twin, Scheme.renamed, Assoc.get?_mapValues, ht1] at ht2
    cases ht2
    obtain ⟨m, hsame, hplain, hwithin⟩ := ht.sameOffer hp.header (Assoc.mem_of_get? ht1)
    refine ⟨_, hfind', m, π, hsame, fun r hr hv => ?_, fun x hx hv => ?_⟩
    · obtain ⟨c, _, hc, _⟩ := h.pendingLeft r hv.1
      exact hv.2 (ht.left.old r (hwithin r hr) (h.left.of_tags hc).2)
    · obtain ⟨c, _, hc, _⟩ := h.pendingRight x hv.1
      exact hv.2 (ht.right.old x (within_image hplain hwithin x hx) (h.right.of_tags hc).2)
  · have hmem' : name ∉ Assoc.keys p.twin.header := by
      rw [Part.twin, Scheme.renamed, Assoc.keys_mapValues]
      exact hmem
    rw [Stage.after, Scheme.find_bind_of_not_mem hmem] at he1
    obtain ⟨e2, he2, m, ρ, hsame, hav1, hav2⟩ := h.names name (hname.resolve_right hmem) e1 he1
    refine ⟨e2, (Scheme.find_bind_of_not_mem hmem').trans he2, m, ρ, ?_,
      fun r hr hv => hav1 r hr hv.1, fun r hr hv => hav2 r hr hv.1⟩
    exact (hsame.moveLeft h.left ht.left fun r hr hv => hav1 r hr (hown r hv)).moveRight
      ht.left.toReads h.right ht.right fun r hr hv => hav2 r hr (hnamed r hv)

end

theorem elaborates (hps : Parts i j ps) (h : InStep i j Q1 Q2 N g1 θ1 g2 θ2)
    (hown : ∀ v, Owned ps v → Q1 v) (hnamed : ∀ x, Named ps x → Q2 x)
    (hask : ∀ p ∈ ps, ∀ o ∈ p.scheme.qualifier.unbound [], N o.1)
    (hrun : Elaborates g1 (ps.map Part.scheme) g1') :
    ∃ g2' θ1' θ2' D D', Elaborates g2 (ps.map Part.twin) g2' ∧
      Region g1.store θ1 (Owned ps) D g1'.store θ1' ∧
      Region g2.store θ2 (Named ps) D' g2'.store θ2' ∧
      InStep i j (Without Q1 (Owned ps)) (Without Q2 (Named ps))
        (fun name => N name ∨ Defines ps name) g1' θ1' g2' θ2' := by
  induction ps generalizing Q1 Q2 N g1 θ1 g2 θ2 with
  | nil =>
    cases hrun
    refine ⟨g2, θ1, θ2, _, _, .nil, .refl h.left h.left, .refl h.right h.right,
      h.mono (fun v hv => hv.1) (fun x hx => hx.1) fun name hname => hname.resolve_right ?_⟩
    rintro ⟨_, hp, _⟩
    cases hp
  | cons p ps ih =>
    obtain ⟨happart, hps'⟩ := List.pairwise_cons.mp hps.apart
    cases hrun with
    | @cons _ _ _ _ s1' hsolves hrest =>
      obtain ⟨s2', τ1, τ2, D, D', hsolves', hleft, hright, hstep⟩ := h.step
        (hps.sound p (.head _)) (fun v hv => hown v ⟨p, .head _, hv⟩)
        (fun x hx => hnamed x ⟨p, .head _, hx⟩) (hask p (.head _)) hsolves
      obtain ⟨g2', θ1', θ2', E, E', hrest', hleft', hright', h'⟩ := ih
        ⟨fun q hq => hps.sound q (.tail _ hq), hps'⟩ hstep
        (fun v ⟨q, hq, hv⟩ => ⟨hown v ⟨q, .tail _ hq, hv⟩,
          fun hv' => (happart q hq).1 v hv' hv⟩)
        (fun x ⟨q, hq, hx⟩ => ⟨hnamed x ⟨q, .tail _ hq, hx⟩,
          fun hx' => (happart q hq).2 x hx' hx⟩)
        (fun q hq o ho => .inl (hask q (.tail _ hq) o ho)) hrest
      refine ⟨g2', θ1', θ2', _, _, .cons hsolves' hrest', (hleft.trans hleft').mono fun v hv => ?_,
        (hright.trans hright').mono fun x hx => ?_, h'.mono (fun v hv => ?_) (fun x hx => ?_)
          fun name hname => ?_⟩
      · exact owned_cons.mpr hv
      · exact named_cons.mpr hx
      · exact ⟨⟨hv.1, fun h => hv.2 (owned_cons.mpr (.inl h))⟩,
          fun h => hv.2 (owned_cons.mpr (.inr h))⟩
      · exact ⟨⟨hx.1, fun h => hx.2 (named_cons.mpr (.inl h))⟩,
          fun h => hx.2 (named_cons.mpr (.inr h))⟩
      · rcases hname with hname | ⟨q, hq, hname⟩
        · exact .inl (.inl hname)
        · rcases List.mem_cons.mp hq with rfl | hq
          · exact .inl (.inr hname)
          · exact .inr ⟨q, hq, hname⟩

theorem find_of_not_defines (h : Elaborates g1 (ps.map Part.scheme) g1')
    (hname : ¬ Defines ps name) : g1'.context.find name = g1.context.find name :=
  h.find_context fun scheme hs hmem => hname (exists_scheme_iff.mp ⟨scheme, hs, hmem⟩)

theorem find_twin_of_not_defines (h : Elaborates g2 (ps.map Part.twin) g2')
    (hname : ¬ Defines ps name) : g2'.context.find name = g2.context.find name :=
  h.find_context fun scheme hs hmem => hname (exists_twin_iff.mp ⟨scheme, hs, hmem⟩)

theorem swap (has : Parts i j as) (hbs : Parts i j bs)
    (h : InStep i j Q1 Q2 (fun _ => True) g1 θ1 g2 θ2) (hown : ∀ v, Owned (as ++ bs) v → Q1 v)
    (hnamed : ∀ x, Named (as ++ bs) x → Q2 x) (happart : ∀ v, Owned as v → ¬ Owned bs v)
    (happart' : ∀ x, Named as x → ¬ Named bs x)
    (hnames : ∀ name, Defines as name → ¬ Defines bs name)
    (haska : ∀ p ∈ as, ∀ o ∈ p.scheme.qualifier.unbound [], ¬ Defines bs o.1)
    (haskb : ∀ p ∈ bs, ∀ o ∈ p.scheme.qualifier.unbound [], ¬ Defines as o.1)
    (hrun : Elaborates g1 ((as ++ bs).map Part.scheme) g1') :
    ∃ g2' θ1' θ2', Elaborates g2 ((bs ++ as).map Part.twin) g2' ∧
      g2.store.size ≤ g2'.store.size ∧ InStep i j (Without Q1 (Owned (as ++ bs)))
        (Without Q2 (Named (as ++ bs))) (fun _ => True) g1' θ1' g2' θ2' := by
  have howna : ∀ v, Owned as v → Q1 v := fun v hv => hown v (owned_append.mpr (.inl hv))
  have hownb : ∀ v, Owned bs v → Q1 v := fun v hv => hown v (owned_append.mpr (.inr hv))
  have hnameda : ∀ x, Named as x → Q2 x := fun x hx => hnamed x (named_append.mpr (.inl hx))
  have hnamedb : ∀ x, Named bs x → Q2 x := fun x hx => hnamed x (named_append.mpr (.inr hx))
  rw [List.map_append] at hrun
  obtain ⟨gm, hruna, hrunb⟩ := hrun.of_append
  -- the first run solves `as` while the second waits, and then both solve `bs`
  obtain ⟨_, θm, _, _, _, _, hmid, _, _⟩ :=
    h.elaborates has howna hnameda (fun _ _ _ _ => .intro) hruna
  have hwait := h.moveLeft hmid howna (M := fun name => ¬ Defines as name)
    fun name hname => ⟨.intro, find_of_not_defines hruna hname⟩
  obtain ⟨gr, θ1', θr, D, D', hrunb', hleft, hright, hb⟩ := hwait.elaborates hbs
    (fun v hv => ⟨hownb v hv, fun hv' => happart v hv' hv⟩) hnamedb haskb hrunb
  -- the second run solves `bs` while the first waits, and then both solve `as`
  have hwait' := h.moveRight hright hnamedb (M := fun name => ¬ Defines bs name)
    fun name hname => ⟨.intro, find_twin_of_not_defines hrunb' hname⟩
  have hnameda' : ∀ x, Named as x → Without Q2 (Named bs) x := fun x hx =>
    ⟨hnameda x hx, happart' x hx⟩
  obtain ⟨ge, θm', θ2', E, E', hruna', _, hright', ha⟩ := hwait'.elaborates has howna hnameda' haska
    hruna
  have hothers := hb.moveRight hright' hnameda' (M := fun name => ¬ Defines as name)
    fun name hname => ⟨.inl hname, find_twin_of_not_defines hruna' hname⟩
  have hread : Region gm.store θm' (Owned bs) (fun _ => False) gm.store θm :=
    .refl ha.left hmid.toReads
  have hleft' : Region gm.store θm' (Owned bs) (fun v => False ∨ D v) g1'.store θ1' :=
    (hread.trans hleft).mono fun _ hv => hv.elim id id
  have hsame := ha.moveLeft hleft' (fun v hv => ⟨hownb v hv, fun hv' => happart v hv' hv⟩)
    (M := Defines as) fun name hname => ⟨.inr hname, find_of_not_defines hrunb (hnames name hname)⟩
  refine ⟨ge, θ1', θ2', by rw [List.map_append]; exact hrunb'.append hruna',
    hright.size_le.trans hright'.size_le, ?_⟩
  have hQ1 : ∀ v, Without Q1 (Owned (as ++ bs)) v → Without (Without Q1 (Owned as)) (Owned bs) v :=
    fun v hv => ⟨⟨hv.1, fun h => hv.2 (owned_append.mpr (.inl h))⟩,
      fun h => hv.2 (owned_append.mpr (.inr h))⟩
  have hQ2 : ∀ x, Without Q2 (Named (as ++ bs)) x → Without (Without Q2 (Named bs)) (Named as) x :=
    fun x hx => ⟨⟨hx.1, fun h => hx.2 (named_append.mpr (.inr h))⟩,
      fun h => hx.2 (named_append.mpr (.inl h))⟩
  have h1 := hothers.mono hQ1 hQ2 fun _ hname => hname
  have h2 := hsame.mono hQ1 hQ2 fun _ hname => hname
  exact ⟨h1.left, h1.right, h1.pendingLeft, h1.pendingRight, fun name _ => by
    by_cases hname : Defines as name
    · exact h2.names name hname
    · exact h1.names name hname⟩

theorem swap_between (hparts : Parts i j (ps ++ (as ++ bs) ++ qs))
    (h : InStep i j Q1 Q2 (fun _ => True) g1 θ1 g2 θ2)
    (hown : ∀ v, Owned (ps ++ (as ++ bs) ++ qs) v → Q1 v)
    (hnamed : ∀ x, Named (ps ++ (as ++ bs) ++ qs) x → Q2 x)
    (hnames : ∀ name, Defines as name → ¬ Defines bs name)
    (haska : ∀ p ∈ as, ∀ o ∈ p.scheme.qualifier.unbound [], ¬ Defines bs o.1)
    (haskb : ∀ p ∈ bs, ∀ o ∈ p.scheme.qualifier.unbound [], ¬ Defines as o.1)
    (hrun : Elaborates g1 ((ps ++ (as ++ bs) ++ qs).map Part.scheme) g1') :
    ∃ g2' θ1' θ2' Q1' Q2', Elaborates g2 ((ps ++ (bs ++ as) ++ qs).map Part.twin) g2' ∧
      InStep i j Q1' Q2' (fun _ => True) g1' θ1' g2' θ2' := by
  obtain ⟨hfirst, hqs, hown1, hnamed1⟩ := hparts.of_append
  obtain ⟨hps, hmiddle, hown0, hnamed0⟩ := hfirst.of_append
  obtain ⟨has, hbs, happart, happart'⟩ := hmiddle.of_append
  have howned : ∀ v, Owned (ps ++ (as ++ bs) ++ qs) v ↔
      (Owned ps v ∨ Owned (as ++ bs) v) ∨ Owned qs v := fun v => by rw [owned_append, owned_append]
  have hnamed' : ∀ x, Named (ps ++ (as ++ bs) ++ qs) x ↔
      (Named ps x ∨ Named (as ++ bs) x) ∨ Named qs x := fun x => by rw [named_append, named_append]
  rw [List.map_append, List.map_append] at hrun
  obtain ⟨gm, hrun, hrunq⟩ := hrun.of_append
  obtain ⟨gl, hrunp, hrunm⟩ := hrun.of_append
  obtain ⟨gl', τ1, τ2, _, _, hrunp', _, _, hin⟩ := h.elaborates hps
    (fun v hv => hown v ((howned v).mpr (.inl (.inl hv))))
    (fun x hx => hnamed x ((hnamed' x).mpr (.inl (.inl hx)))) (fun _ _ _ _ => .intro) hrunp
  obtain ⟨gm', σ1, σ2, hrunm', _, hin'⟩ := (hin.mono (fun _ hv => hv) (fun _ hx => hx)
    fun _ _ => .inl .intro).swap has hbs
    (fun v hv => ⟨hown v ((howned v).mpr (.inl (.inr hv))), fun hv' => hown0 v hv' hv⟩)
    (fun x hx => ⟨hnamed x ((hnamed' x).mpr (.inl (.inr hx))), fun hx' => hnamed0 x hx' hx⟩)
    happart happart' hnames haska haskb hrunm
  obtain ⟨g2', θ1', θ2', _, _, hrunq', _, _, hend⟩ := hin'.elaborates hqs
    (fun v hv => ⟨⟨hown v ((howned v).mpr (.inr hv)),
      fun hv' => hown1 v (owned_append.mpr (.inl hv')) hv⟩,
      fun hv' => hown1 v (owned_append.mpr (.inr hv')) hv⟩)
    (fun x hx => ⟨⟨hnamed x ((hnamed' x).mpr (.inr hx)),
      fun hx' => hnamed1 x (named_append.mpr (.inl hx')) hx⟩,
      fun hx' => hnamed1 x (named_append.mpr (.inr hx')) hx⟩)
    (fun _ _ _ _ => .intro) hrunq
  refine ⟨g2', θ1', θ2', _, _, ?_,
    hend.mono (fun _ hv => hv) (fun _ hx => hx) fun _ _ => .inl .intro⟩
  rw [List.map_append, List.map_append]
  exact (hrunp'.append hrunm').append hrunq'

variable {start1 start2 : Stage} {schemes1 schemes2 : List Scheme}

theorem bindings_eq (h : InStep i j Q1 Q2 (fun _ => True) g1 θ1 g2 θ2)
    (h1 : Elaborates start1 schemes1 g1) (h2 : Elaborates start2 schemes2 g2)
    (htop1 : start1.topLevel = []) (htop2 : start2.topLevel = [])
    (hnames : ∀ name, (∃ scheme ∈ schemes2, name ∈ Assoc.keys scheme.header) ↔
      ∃ scheme ∈ schemes1, name ∈ Assoc.keys scheme.header) {k1 k2 : Nat}
    {bindings1 bindings2 : List (String × Polytype)}
    (hb1 : readBindings g1.store k1 g1.topLevel = some bindings1)
    (hb2 : readBindings g2.store k2 g2.topLevel = some bindings2) : bindings2 = bindings1 := by
  have hsorted : ∀ {start : Stage}, start.topLevel = [] → Assoc.Sorted start.topLevel := fun h =>
    h ▸ Assoc.sorted_nil
  obtain ⟨hs1, hrel1⟩ := rel_of_readBindings (h1.sorted (hsorted htop1)) hb1
  obtain ⟨hs2, hrel2⟩ := rel_of_readBindings (h2.sorted (hsorted htop2)) hb2
  refine hs2.ext hs1 fun name => ?_
  have hrel1 := hrel1 name
  have hrel2 := hrel2 name
  rw [h1.find_topLevel, htop1] at hrel1
  rw [h2.find_topLevel, htop2] at hrel2
  by_cases hbound : ∃ scheme ∈ schemes1, name ∈ Assoc.keys scheme.header
  · rw [if_pos hbound] at hrel1
    rw [if_pos ((hnames name).mpr hbound)] at hrel2
    obtain ⟨scheme, hs, hname⟩ := hbound
    obtain ⟨qs1, t1, hfind1⟩ := h1.exists_find hs hname
    obtain ⟨e2, he2, m, ρ, hsame, _⟩ := h.names name .intro _ hfind1
    rw [hfind1] at hrel1
    rw [he2] at hrel2
    generalize Assoc.get? bindings1 name = p1 at hrel1 ⊢
    generalize Assoc.get? bindings2 name = p2 at hrel2 ⊢
    cases hrel1 with
    | some hp1 =>
      cases hrel2 with
      | some hp2 => rw [hsame.polytype_eq h.left h.right hp1 hp2]
  · rw [if_neg hbound] at hrel1
    rw [if_neg fun h => hbound ((hnames name).mp h)] at hrel2
    generalize Assoc.get? bindings1 name = p1 at hrel1 ⊢
    generalize Assoc.get? bindings2 name = p2 at hrel2 ⊢
    cases hrel1
    cases hrel2
    rfl

end InStep
end Twins
end TypeSolver
