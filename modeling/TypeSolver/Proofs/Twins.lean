import TypeSolver.Proofs.Names
import TypeSolver.Proofs.Renaming
import TypeSolver.Proofs.Satisfaction
import TypeSolver.Proofs.Successes
import TypeSolver.Proofs.Traces

/-!
# TypeSolver.Proofs.Twins

One constraint in two stores. A constraint without records is solved in two stores that agree,
under other names, on the variables that it mentions and on the schemes that it asks for. If it can
be solved in the first, then it can be solved in the second, and the stores agree afterwards
(`Solves.twins`). What a group does not mention plays no part in this; it is the same before and
after (`Region`).
-/

namespace TypeSolver

open Meaning Copying

/-! ## One store -/

namespace Store

variable {s s' o : Store} {θ θ' τ : Valuation} {t u : Ty} {m : Meaning} {D own : Var → Prop}

theorem Reading.unique (hθ : s.Reading θ) (hθ' : s.Reading θ') (hs : s.FirstOrder) {v : Var}
    (hv : v < s.size) : θ' v = θ v :=
  hθ.toSolvedBy.eq_of_free hθ'.toSolvedBy hs.grounded hs.toFormed hs.usable
    (fun v hk => by rw [hθ.free v hk, hθ'.free v hk]) v hv

theorem tags_of_extends {qs : List Var} {rank : Rank} {c : Copying} (hc : Extends s qs rank c)
    {r : Var} (hr : r < s.size) : c.store.tags r = s.tags r :=
  tags_congr (hc.root r) (hc.content r hr)

/-- A copy takes the given rank and the hint of its source. -/
theorem tags_of_copy {qs : List Var} {rank : Rank} {c : Copying} (hc : Extends s qs rank c)
    {q w : Var} (h : (q, w) ∈ c.copies) :
    c.store.tags w = (s.tags q).map fun tag => ⟨rank, tag.hint⟩ := by
  obtain ⟨k, hint, hq, hw⟩ := hc.hinted q w h
  have hroot : c.store.root w = w := by
    rw [hc.root, (Forest.root_of_size_le (hc.target q w h).1).1]
  rw [tags_of_unbound hroot hw, tags_of_unbound (hc.source q w h).2.2 hq]
  rfl

/-- What instantiation makes of a first-order type: its tree with the quantifiers that it mentions
replaced by their copies. -/
structure InstanceOf (s : Store) (qs : List Var) (rank : Rank) (m : Meaning) (u : Ty)
    (c : Copying) : Prop where
  copies : Extends s (qs.map s.root) rank c
  firstOrder : u.FirstOrder s.aliases
  fits : u.Fits c.store.size
  covers : ∀ r, m.Mentions r → r ∈ qs.map s.root → ∃ w, (r, w) ∈ c.copies
  tree : ∀ θ, c.store.Reading θ → Denotes s.aliases θ u (m.renamed (Copying.renamed c.copies))

theorem instanceOf_of_instantiated (hs : s.FirstOrder) (hθ : s.Reading θ) {qs : List Var}
    {rank : Rank} (h : s.Instantiated qs rank t u s') (hft : t.FirstOrder s.aliases)
    (ht : t.Fits s.size) (hm : Denotes s.aliases θ t m) :
    ∃ c, s' = c.store ∧ InstanceOf s qs rank m u c := by
  obtain ⟨k, hk⟩ := h.exists_fuel
  obtain ⟨c, rfl, hc, hcopied⟩ := instance_copied hs.forest hs.toFormed.contained hk ht.below
  have hold : ∀ θ', c.store.Reading θ' → Denotes s.aliases θ' t m := fun θ' hθ' =>
    hm.congr hs.usable (Ty.Over.mono ht fun v hv => hθ.unique (hc.reading hθ') hs hv)
  have hplain := hs.plain hθ ht hft hm
  refine ⟨c, rfl, ?_⟩
  rcases hcopied with ⟨rfl, rfl, hstore⟩ | hcopied
  · have hself : m.renamed (Copying.renamed c.copies) = m := hplain.subst_eq_self fun r _ => by
      rw [renamed_of_not_mem fun w hw => by simpa using (hc.source r w hw).1]
    refine ⟨hc, hft, by rw [hstore]; exact ht, fun r _ hr => by simp at hr, fun θ' hθ' => ?_⟩
    rw [hself]
    exact hold θ' hθ'
  · refine ⟨hc, hcopied.firstOrder hs hft,
      hcopied.fits hs.toFormed hc.size_le (fun q w h => (hc.target q w h).2) ht,
      fun r hr hq => ?_, fun θ' hθ' => ?_⟩
    · obtain ⟨hk, _, v, hv, hreach⟩ := hθ.exists_of_mentions hs.toIntact ht hm hr
      exact hcopied.covers hs.forest (fun q w h => (hc.source q w h).2.1) hv hreach hq hk
    · have hθs := hc.reading hθ'
      refine hcopied.denotes hs hθs.toSolvedBy hft ht (fun q w h => ?_) (fun v hv hk hq => ?_)
        (hold θ' hθ')
      · obtain ⟨_, hkq, hrq⟩ := hc.source q w h
        obtain ⟨hge, hlt⟩ := hc.target q w h
        rw [hθs.free q hkq, hrq, Meaning.subst, hc.renamed_eq h,
          hθ'.free w (hc.kind_new hge hlt), hc.root, (Forest.root_of_size_le hge).1]
      · rw [hθs.free v hk, Meaning.subst, renamed_of_not_mem fun w hw => hq (hc.source _ w hw).1]

/-- A first-order store without aliases, and its reading. -/
structure Reads (s : Store) (θ : Valuation) : Prop where
  firstOrder : s.FirstOrder
  aliases : s.aliases = []
  reading : s.Reading θ

/-- The store `s`, which came from `o`, is outside the variables `D` what `o` was. The variables of
`D` were made since then or are in `own`. -/
structure Region (o : Store) (τ : Valuation) (own D : Var → Prop) (s : Store) (θ : Valuation) :
    Prop extends s.Reads θ where
  size_le : o.size ≤ s.size
  lt : ∀ v, D v → v < s.size
  old : ∀ v, D v → v < o.size → own v
  tags : ∀ r, r < o.size → ¬ D r → s.tags r = o.tags r
  trees : ∀ v, v < o.size → (τ v).Avoids D → θ v = τ v

/-- The type stands for the tree `m`, all of whose variables are quantified. -/
structure Quantified (s : Store) (θ : Valuation) (qs : List Var) (t : Ty) (m : Meaning) : Prop where
  denotes : Denotes [] θ t m
  firstOrder : t.FirstOrder []
  fits : t.Fits s.size
  closed : ∀ r, m.Mentions r → r ∈ qs.map s.root

theorem Relinked.tags_eq (h : Relinked s s') (hs : s.LinksEnd) : s'.tags = s.tags :=
  funext fun r => tags_congr (h.root hs r) (h.content hs r)

theorem Region.relinked {o : Store} {τ : Valuation} {own D : Var → Prop}
    (h : Region o τ own D s θ) (hs : Relinked s s') : Region o τ own D s' θ := by
  have hl := h.firstOrder.forest.linksEnd
  have hal := hs.alike hl
  refine ⟨⟨h.firstOrder.alike (hs.forest h.firstOrder.forest) hal, hal.aliases.trans h.aliases,
    hal.reading h.reading⟩, ?_, fun v hv => ?_, h.old, fun r hr hn => ?_, h.trees⟩
  · rw [hal.size]; exact h.size_le
  · rw [hal.size]; exact h.lt v hv
  · rw [hs.tags_eq hl]; exact h.tags r hr hn

namespace Reads

theorem live (h : s.Reads θ) (hft : t.FirstOrder []) (ht : t.Fits s.size) (hm : Denotes [] θ t m) :
    s.Live m := by
  rw [← h.aliases] at hft hm
  exact h.firstOrder.live h.reading ht hft hm

theorem mem_generalizable (h : s.Reads θ) {header : Header} {outer : Rank}
    (hlt : ∀ e ∈ header, ∀ v ∈ e.2.vars, v < s.size) {r : Var} :
    r ∈ s.generalizable header outer ↔ ∃ e ∈ header, ∃ v ∈ e.2.vars, (θ v).Mentions r ∧
      ∃ c, s.tags r = some c ∧ outer < c.rank := by
  rw [Store.mem_generalizable h.firstOrder.toFormed hlt]
  constructor
  · rintro ⟨⟨e, he, v, hv, hreach⟩, k, hk, hle⟩
    obtain ⟨hint, hc⟩ := rank?_eq_some.mp hk
    have hroot := hreach.root_eq h.firstOrder.forest
    exact ⟨e, he, v, hv, (h.firstOrder.mentions_iff h.reading (hlt e he v hv)).mpr
      ⟨hreach, kind_eq_free_iff_rank?.mpr ⟨k, hk⟩⟩, _, tags_of_unbound hroot hc, hle⟩
  · rintro ⟨e, he, v, hv, hmen, c, hc, hle⟩
    exact ⟨⟨e, he, v, hv, ((h.firstOrder.mentions_iff h.reading (hlt e he v hv)).mp hmen).1⟩, _,
      (of_tags hc).2.2, hle⟩

end Reads

namespace Region

theorem denotes_outside (h : Region o τ own D s θ) (ho : o.Reads τ) (hft : t.FirstOrder [])
    (ht : t.Fits o.size) (hm : Denotes [] τ t m) (hown : m.Avoids own) : Denotes [] θ t m := by
  have hu : AliasTable.Usable [] := ho.aliases ▸ ho.firstOrder.usable
  refine hm.congr hu (ht.restrict fun v hv => h.trees v (ht.lt hv) fun r hr hD => ?_)
  have hmr : m.Mentions r := (hft.mentions_iff hm).mpr ⟨v, hv, hr⟩
  exact hown r hmr (h.old r hD ((ho.live hft ht hm).lt hmr))

theorem quantified (h : Region o τ own D s θ) (ho : o.Reads τ) {qs : List Var}
    (hq : Quantified o τ qs t m) (hown : m.Avoids own) :
    Quantified s θ qs t m ∧ ∀ r, m.Mentions r → s.tags r = o.tags r := by
  have hlive := ho.live hq.firstOrder hq.fits hq.denotes
  have hout : ∀ r, m.Mentions r → ¬ D r := fun r hr hD => hown r hr (h.old r hD (hlive.lt hr))
  refine ⟨⟨h.denotes_outside ho hq.firstOrder hq.fits hq.denotes hown, hq.firstOrder,
    hq.fits.mono h.size_le, fun r hr => ?_⟩, fun r hr => h.tags r (hlive.lt hr) (hout r hr)⟩
  obtain ⟨q, hqs, hroot⟩ := List.mem_map.mp (hq.closed r hr)
  have hfree : o.kind q = .free := by
    rw [← kind_root ho.firstOrder.forest, hroot]
    exact (hlive.within r hr).1
  have hlt : q < o.size := lt_of_kind (by simp [hfree])
  have hτ : τ q = .var r := by rw [ho.reading.free q hfree, hroot]
  have hθ : θ q = .var r := by
    rw [← hτ]
    exact h.trees q hlt (by rw [hτ, Meaning.avoids_var]; exact hout r hr)
  exact List.mem_map.mpr ⟨q, hqs,
    ((h.firstOrder.eq_var_iff h.reading (Nat.lt_of_lt_of_le hlt h.size_le)).mp hθ).2⟩

/-- A call about trees over `D` keeps to `D`. -/
theorem unify (h : Region o τ own D s θ) {l r : Ty}
    (hrun : Completes (.types l r) s (.unified s')) (hc : (Call.types l r).FirstOrder [])
    (hfit : (Call.types l r).Fits s.size) {ml mr : Meaning} (hl : Denotes [] θ l ml)
    (hr : Denotes [] θ r mr) (hlD : ml.Within D) (hrD : mr.Within D) :
    ∃ θ', Region o τ own D s' θ' ∧ Unifies s.tags θ [(ml, mr)] s'.tags θ' := by
  obtain ⟨n, hruns⟩ := hrun.runs (by simp)
  rw [← h.aliases] at hc hl hr
  obtain ⟨θ', hθ', hu⟩ := hruns.unifies h.firstOrder hc hfit h.reading hl hr
  obtain ⟨hs', hsize, hal⟩ := (hruns.faithful h.firstOrder hc hfit).keeps s' rfl
  have hframe := hu.frame (Pairs.within_cons.mpr ⟨⟨hlD, hrD⟩, fun w hw => by cases hw⟩)
  refine ⟨θ', ⟨⟨hs', hal.trans h.aliases, hθ'⟩, by rw [hsize]; exact h.size_le,
    fun v hv => by rw [hsize]; exact h.lt v hv, h.old, fun r hr hD => ?_, fun v hv hav => ?_⟩, hu⟩
  · rw [hframe.tags r hD, h.tags r hr hD]
  · have heq := h.trees v hv hav
    have hplain := h.firstOrder.plain_reading h.reading (Nat.lt_of_lt_of_le hv h.size_le)
    rw [hframe.outside v hplain (by rw [heq]; exact hav), heq]

theorem grow (h : Region o τ own D s θ) {qs : List Var} {rank : Rank} {c : Copying}
    (hc : Extends s qs rank c) {E : Var → Prop} (hD : ∀ v, D v → E v)
    (hnew : ∀ v, E v → D v ∨ s.size ≤ v ∧ v < c.store.size) :
    ∃ θ', Region o τ own E c.store θ' ∧ ∀ v, v < s.size → θ' v = θ v := by
  have hs' := (refines_of_extends hc h.firstOrder).firstOrder
  obtain ⟨θ', hθ'⟩ := hs'.exists_reading
  have hold : ∀ v, v < s.size → θ' v = θ v := fun v hv =>
    h.reading.unique (hc.reading hθ') h.firstOrder hv
  refine ⟨θ', ⟨⟨hs', hc.aliases.trans h.aliases, hθ'⟩, h.size_le.trans hc.size_le, fun v hv => ?_,
    fun v hv hlt => ?_, fun r hr hE => ?_, fun v hv hav => ?_⟩, hold⟩
  · rcases hnew v hv with hv | ⟨_, hv⟩
    · exact Nat.lt_of_lt_of_le (h.lt v hv) hc.size_le
    · exact hv
  · rcases hnew v hv with hv | ⟨hge, _⟩
    · exact h.old v hv hlt
    · exact absurd (h.size_le.trans hge) (Nat.not_le.mpr hlt)
  · rw [tags_of_extends hc (Nat.lt_of_lt_of_le hr h.size_le), h.tags r hr fun hr => hE (hD r hr)]
  · rw [hold v (Nat.lt_of_lt_of_le hv h.size_le), h.trees v hv fun r hr hr' => hav r hr (hD r hr')]

end Region

end Store

/-! ## Types under other names -/

namespace Ty.FirstOrder

variable {table : AliasTable} {t : Ty} {ι π : Var → Var} {θ1 θ2 : Valuation} {m : Meaning}

theorem renamed (h : t.FirstOrder table) : (t.renamed ι).FirstOrder table := by
  induction h with
  | var => exact .var
  | func _ _ iha ihr => exact .func iha ihr
  | app hn _ ih =>
    rw [Ty.renamed_app]
    refine .app hn fun a ha => ?_
    obtain ⟨b, hb, rfl⟩ := List.mem_map.mp ha
    exact ih b hb

theorem denotes_renamed (h : t.FirstOrder table)
    (hθ : ∀ v ∈ t.vars, θ2 (ι v) = (θ1 v).renamed π) (hm : Denotes table θ1 t m) :
    Denotes table θ2 (t.renamed ι) (m.renamed π) := by
  induction h generalizing m with
  | @var v =>
    rw [Denotes.var_iff.mp hm, Ty.renamed, ← hθ v (by simp)]
    exact .var _
  | func _ _ iha ihr =>
    obtain ⟨a, r, rfl, ha, hr⟩ := Denotes.func_iff.mp hm
    rw [Ty.renamed, Meaning.renamed_func]
    exact .func (iha (fun v hv => hθ v (by simp [hv])) ha)
      (ihr (fun v hv => hθ v (by simp [hv])) hr)
  | @app name args hn hargs ih =>
    obtain ⟨ms, rfl, hms⟩ := (Denotes.app_iff (Ty.FirstOrder.app hn hargs).expand_ne).mp hm
    have hfirst : (Ty.app name (args.map (Ty.renamed ι))).FirstOrder table := by
      have h := (Ty.FirstOrder.app hn hargs).renamed (ι := ι)
      rwa [Ty.renamed_app] at h
    rw [Ty.renamed_app, Meaning.renamed_app, Denotes.app_iff hfirst.expand_ne]
    refine ⟨_, rfl, ?_⟩
    rw [List.forall₂_map_left_iff, List.forall₂_map_right_iff]
    refine forall₂_of_mem (P := fun a => a ∈ args) (hms.imp fun a m hm ha => ?_) fun a ha => ha
    exact ih a ha (fun v hv => hθ v (Ty.mem_vars_app.mpr ⟨a, ha, hv⟩)) hm

end Ty.FirstOrder

/-! ## Two stores -/

def Image (D : Var → Prop) (π : Var → Var) (x : Var) : Prop := ∃ v, D v ∧ π v = x

variable {D : Var → Prop} {π : Var → Var}

theorem exists_along {α : Type} (hinj : ∀ a b, D a → D b → π a = π b → a = b) (f d : Var → α) :
    ∃ f' : Var → α, (∀ v, D v → f' (π v) = f v) ∧ ∀ x, ¬ Image D π x → f' x = d x := by
  have hex : ∀ x, ∃ a, (∀ v, D v → π v = x → a = f v) ∧ (¬ Image D π x → a = d x) := fun x => by
    by_cases hx : Image D π x
    · obtain ⟨v, hv, rfl⟩ := hx
      exact ⟨f v, fun w hw heq => by rw [hinj w v hw hv heq], fun hn => absurd ⟨v, hv, rfl⟩ hn⟩
    · exact ⟨d x, fun v hv heq => absurd ⟨v, hv, heq⟩ hx, fun _ => rfl⟩
  choose f' hf' hd using hex
  exact ⟨f', fun v hv => hf' (π v) v hv rfl, hd⟩

/-- Where a group is met: two stores with their readings, the variables made for the group in the
first, and how they are called in the second. -/
structure Origin where
  own : Var → Prop
  names : Var → Var
  left : Store
  leftTrees : Valuation
  right : Store
  rightTrees : Valuation

/-- The stores that a group has come to: outside the variables `D` they are what they were, and
on `D`, read through `π`, they agree. -/
structure Twins (O : Origin) (D : Var → Prop) (π : Var → Var) (s1 : Store) (θ1 : Valuation)
    (s2 : Store) (θ2 : Valuation) : Prop where
  left : Store.Region O.left O.leftTrees O.own D s1 θ1
  right : Store.Region O.right O.rightTrees (Image O.own O.names) (Image D π) s2 θ2
  twin : Twin D π s1.tags θ1 s2.tags θ2
  own : ∀ v, O.own v → D v ∧ π v = O.names v
  inside : s1.tags.Inside D

/-- A pair of types, one over each store, that stand for one tree over `D`. -/
structure Paired (D : Var → Prop) (π : Var → Var) (s1 : Store) (θ1 : Valuation) (s2 : Store)
    (θ2 : Valuation) (t1 t2 : Ty) (m : Meaning) : Prop where
  left : Denotes [] θ1 t1 m
  right : Denotes [] θ2 t2 (m.renamed π)
  plain : m.Plain
  within : m.Within D
  firstOrder : t1.FirstOrder [] ∧ t2.FirstOrder []
  fits : t1.Fits s1.size ∧ t2.Fits s2.size

theorem within_image {m : Meaning} (hp : m.Plain) (h : m.Within D) :
    (m.renamed π).Within (Image D π) := by
  intro r hr
  obtain ⟨x, hx, rfl⟩ := hp.mentions_renamed.mp hr
  exact ⟨x, h x hx, rfl⟩

namespace Twins

variable {O : Origin} {D : Var → Prop} {π : Var → Var} {s1 s1' s2 s2' : Store}
  {θ1 θ1' θ2 θ2' : Valuation}

theorem relinked (h : Twins O D π s1 θ1 s2 θ2) (h1 : Store.Relinked s1 s1')
    (h2 : Store.Relinked s2 s2') : Twins O D π s1' θ1 s2' θ2 := by
  have htags1 := h1.tags_eq h.left.firstOrder.forest.linksEnd
  refine ⟨h.left.relinked h1, h.right.relinked h2, ?_, h.own, htags1 ▸ h.inside⟩
  rw [htags1, h2.tags_eq h.right.firstOrder.forest.linksEnd]
  exact h.twin

theorem paired (h : Twins O D π s1 θ1 s2 θ2) {t : Ty} (hft : t.FirstOrder [])
    (hown : ∀ v ∈ t.vars, O.own v) :
    ∃ m, Paired D π s1 θ1 s2 θ2 t (t.renamed O.names) m := by
  have hD : ∀ v ∈ t.vars, D v ∧ π v = O.names v := fun v hv => h.own v (hown v hv)
  have ht : t.Fits s1.size := hft.fits fun v hv => h.left.lt v (hD v hv).1
  have hu : AliasTable.Usable [] := h.left.aliases ▸ h.left.firstOrder.usable
  obtain ⟨m, hm⟩ := hu.exists_denotes θ1 t
  refine ⟨m, hm, ?_, hft.plain hm fun v hv => h.twin.plain v (hD v hv).1, fun r hr => ?_,
    ⟨hft, hft.renamed⟩, ht, hft.renamed.fits fun w hw => ?_⟩
  · refine hft.denotes_renamed (fun v hv => ?_) hm
    rw [← (hD v hv).2, h.twin.trees v (hD v hv).1]
  · obtain ⟨v, hv, hr⟩ := (hft.mentions_iff hm).mp hr
    exact h.twin.within v (hD v hv).1 r hr
  · obtain ⟨v, hv, rfl⟩ := Ty.mem_vars_renamed.mp hw
    exact h.right.lt _ ⟨v, hD v hv⟩

variable {l1 l2 r1 r2 t1 t2 : Ty} {ml mr : Meaning} {E S : Var → Prop} {ν ρ : Var → Var}
  {c1 c2 : Copying} {qs1 qs2 : List Var} {ctx1 ctx2 : Context} {name : String} {header : Header}

theorem exists_solution (h : Twins O D π s1 θ1 s2 θ2) (hl : Paired D π s1 θ1 s2 θ2 l1 l2 ml)
    (hr : Paired D π s1 θ1 s2 θ2 r1 r2 mr) {σ : Valuation} (hσ : ∀ v, (σ v).Tidy)
    (heq : ml.subst σ = mr.subst σ) :
    ∃ σ', s2.SolvedBy σ' ∧ (Store.Call.types l2 r2).Holds s2.aliases σ' := by
  obtain ⟨σ', hback, hother⟩ := exists_along h.twin.inj σ .var
  have hσ' : ∀ x, (σ' x).Tidy := fun x => by
    by_cases hx : Image D π x
    · obtain ⟨v, hv, rfl⟩ := hx
      rw [hback v hv]
      exact hσ v
    · rw [hother x hx]
      trivial
  have hback' : ∀ m : Meaning, m.Plain → m.Within D → (m.renamed π).subst σ' = m.subst σ := by
    intro m hp hm
    rw [Meaning.renamed, hp.subst_subst]
    refine hp.subst_congr fun r hr => ?_
    rw [Meaning.subst, hback r (hm r hr)]
  have hs2 := h.right.firstOrder
  have hsolved := h.right.reading.solvedBy_subst hs2.toFormed hs2.usable hσ'
  have hden : ∀ {t m}, t.Fits s2.size → Denotes [] θ2 t m →
      Denotes s2.aliases (fun v => (θ2 v).subst σ') t (m.subst σ') := by
    intro t m ht hm
    rw [← h.right.aliases] at hm
    exact hm.subst hs2.usable hσ' (Ty.Over.mono ht fun v _ => ⟨h.right.reading.tidy v, rfl⟩)
  refine ⟨_, hsolved, _, hden hl.fits.2 hl.right, ?_⟩
  rw [hback' ml hl.plain hl.within, heq, ← hback' mr hr.plain hr.within]
  exact hden hr.fits.2 hr.right

theorem unify (h : Twins O D π s1 θ1 s2 θ2) (hl : Paired D π s1 θ1 s2 θ2 l1 l2 ml)
    (hr : Paired D π s1 θ1 s2 θ2 r1 r2 mr)
    (hrun : Store.Completes (.types l1 r1) s1 (.unified s1')) :
    ∃ s2' θ1' θ2', Store.Completes (.types l2 r2) s2 (.unified s2') ∧
      Twins O D π s1' θ1' s2' θ2' := by
  have hc1 : (Store.Call.types l1 r1).FirstOrder [] := ⟨hl.firstOrder.1, hr.firstOrder.1⟩
  have hc2 : (Store.Call.types l2 r2).FirstOrder [] := ⟨hl.firstOrder.2, hr.firstOrder.2⟩
  have hfit1 : (Store.Call.types l1 r1).Fits s1.size := ⟨hl.fits.1, hr.fits.1⟩
  have hfit2 : (Store.Call.types l2 r2).Fits s2.size := ⟨hl.fits.2, hr.fits.2⟩
  obtain ⟨θ1', hleft, hu1⟩ := h.left.unify hrun hc1 hfit1 hl.left hr.left hl.within hr.within
  -- the second call ends, and the solution that the first one found shows that it succeeds
  obtain ⟨s2', hrun2⟩ : ∃ s2', Store.Completes (.types l2 r2) s2 (.unified s2') := by
    rw [← h.right.aliases] at hc2
    rw [← h.left.aliases] at hc1
    obtain ⟨o, hcompletes, ho⟩ := h.right.firstOrder.stops hc2 hfit2
    obtain ⟨n1, hruns1⟩ := hrun.runs (by simp)
    obtain ⟨n2, hruns2⟩ := hcompletes.runs ho
    obtain ⟨hsolved, m, hml, hmr⟩ := (hruns1.strict h.left.firstOrder hc1 hfit1).sound
      h.left.firstOrder.toIntact hfit1 s1' rfl h.left.firstOrder.toIntact θ1'
      hleft.reading.toSolvedBy
    have hden : ∀ {t m}, t.Fits s1.size → Denotes [] θ1 t m →
        Denotes s1.aliases θ1' t (m.subst θ1') := by
      intro t m ht hm
      rw [← h.left.aliases] at hm
      exact hsolved.denotes_subst h.left.reading h.left.firstOrder.grounded
        h.left.firstOrder.toFormed h.left.firstOrder.usable ht hm
    have heq : ml.subst θ1' = mr.subst θ1' := by
      rw [(hden hl.fits.1 hl.left).unique hml, (hden hr.fits.1 hr.left).unique hmr]
    obtain ⟨σ', hσ', hholds⟩ := h.exists_solution hl hr hleft.reading.tidy heq
    obtain ⟨s2', rfl, _⟩ := (hruns2.faithful h.right.firstOrder hc2 hfit2).complete σ' hσ' hholds
    exact ⟨s2', hcompletes⟩
  obtain ⟨θ2', hright, hu2⟩ := h.right.unify hrun2 hc2 hfit2 hl.right hr.right
    (within_image hl.plain hl.within) (within_image hr.plain hr.within)
  have hws : Pairs.Within D [(ml, mr)] :=
    Pairs.within_cons.mpr ⟨⟨hl.within, hr.within⟩, fun w hw => by cases hw⟩
  have hp : Pairs.Plain [(ml, mr)] :=
    Pairs.plain_cons.mpr ⟨⟨hl.plain, hr.plain⟩, fun w hw => by cases hw⟩
  exact ⟨s2', θ1', θ2', hrun2, hleft, hright, hu1.together hu2 h.twin hp hws, h.own,
    hu1.inside hws h.inside⟩

/-! ### Instances -/

/-- The types that two schemes give to a name stand for one tree, read through `ρ`. The schemes
quantify over the same of its variables, with the same hints, and the others are in `D`. -/
structure Offers (D : Var → Prop) (π : Var → Var) (s1 : Store) (θ1 : Valuation) (s2 : Store)
    (θ2 : Valuation) (qs1 : List Var) (t1 : Ty) (qs2 : List Var) (t2 : Ty) (m : Meaning)
    (ρ : Var → Var) : Prop where
  left : Denotes [] θ1 t1 m
  right : Denotes [] θ2 t2 (m.renamed ρ)
  firstOrder : t1.FirstOrder [] ∧ t2.FirstOrder []
  fits : t1.Fits s1.size ∧ t2.Fits s2.size
  inj : ∀ a b, m.Mentions a → m.Mentions b → ρ a = ρ b → a = b
  quantified : ∀ r, m.Mentions r → (r ∈ qs1.map s1.root ↔ ρ r ∈ qs2.map s2.root)
  shared : ∀ r, m.Mentions r → r ∉ qs1.map s1.root → D r ∧ ρ r = π r
  hints : ∀ r, m.Mentions r → r ∈ qs1.map s1.root →
    (s2.tags (ρ r)).map Tag.hint = (s1.tags r).map Tag.hint

/-- The variables `E` are `D` and some more, and `ν` reads those of `D` as `π` does. -/
structure Grows (D : Var → Prop) (π : Var → Var) (E : Var → Prop) (ν : Var → Var) : Prop where
  sub : ∀ v, D v → E v
  same : ∀ v, D v → ν v = π v

theorem Grows.refl : Grows D π D π := ⟨fun _ h => h, fun _ _ => rfl⟩

theorem Grows.trans {F : Var → Prop} {κ : Var → Var} (h : Grows D π E ν) (h' : Grows E ν F κ) :
    Grows D π F κ :=
  ⟨fun v hv => h'.sub v (h.sub v hv), fun v hv => by rw [h'.same v (h.sub v hv), h.same v hv]⟩

/-- Copies in both stores of the variables `S`, which the second store calls `ρ`. Read through `ν`,
the copy of a variable is the copy of what it is called. -/
structure Copies (S : Var → Prop) (ρ : Var → Var) (rank : Rank) (s1 s2 : Store) (c1 c2 : Copying)
    (π ν : Var → Var) : Prop where
  left : ∃ qs, Extends s1 qs rank c1
  right : ∃ qs, Extends s2 qs rank c2
  copied : ∀ r, S r → (r, Copying.renamed c1.copies r) ∈ c1.copies
  copied' : ∀ r, S r → (ρ r, Copying.renamed c2.copies (ρ r)) ∈ c2.copies
  old : ∀ v, v < s1.size → ν v = π v
  new : ∀ r, S r → ν (Copying.renamed c1.copies r) = Copying.renamed c2.copies (ρ r)

/-- The variables `D` and the copies of `S`. -/
def WithCopies (D S : Var → Prop) (c : Copying) (v : Var) : Prop :=
  D v ∨ Image S (Copying.renamed c.copies) v

theorem Copies.grows {rank : Rank} (hc : Copies S ρ rank s1 s2 c1 c2 π ν)
    (h : Twins O D π s1 θ1 s2 θ2) : Grows D π (WithCopies D S c1) ν :=
  ⟨fun _ => .inl, fun v hv => hc.old v (h.left.lt v hv)⟩

theorem eq_var_of_copy {s : Store} {qs : List Var} {rank : Rank} {c : Copying} {θ : Valuation}
    (hc : Extends s qs rank c) (hθ : c.store.Reading θ) {q w : Var} (h : (q, w) ∈ c.copies) :
    θ w = .var w := by
  obtain ⟨hge, hlt⟩ := hc.target q w h
  rw [hθ.free w (hc.kind_new hge hlt), hc.root, (Store.Forest.root_of_size_le hge).1]

theorem Copies.twin {rank : Rank} (hc : Copies S ρ rank s1 s2 c1 c2 π ν)
    (h : Twins O D π s1 θ1 s2 θ2) (hinj : ∀ a b, S a → S b → ρ a = ρ b → a = b)
    (hhints : ∀ r, S r → (s2.tags (ρ r)).map Tag.hint = (s1.tags r).map Tag.hint)
    (hθ1' : c1.store.Reading θ1') (hθ2' : c2.store.Reading θ2')
    (hθ1 : ∀ v, v < s1.size → θ1' v = θ1 v) (hθ2 : ∀ v, v < s2.size → θ2' v = θ2 v) :
    Twin (WithCopies D S c1) ν c1.store.tags θ1' c2.store.tags θ2' := by
  obtain ⟨_, hc1⟩ := hc.left
  obtain ⟨_, hc2⟩ := hc.right
  have hgrows := hc.grows h
  have hlt1 : ∀ v, D v → v < s1.size := h.left.lt
  have hlt2 : ∀ v, D v → π v < s2.size := fun v hv => h.right.lt _ ⟨v, hv, rfl⟩
  have hge2 : ∀ r, S r → s2.size ≤ Copying.renamed c2.copies (ρ r) := fun r hr =>
    (hc2.target _ _ (hc.copied' r hr)).1
  have hwithin : ∀ v, D v → (θ1' v).Within (WithCopies D S c1) := fun v hv r hr => by
    rw [hθ1 v (hlt1 v hv)] at hr
    exact .inl (h.twin.within v hv r hr)
  refine ⟨?_, ?_, ?_, ?_, ?_⟩
  · rintro a b (ha | ⟨r, hr, rfl⟩) (hb | ⟨r', hr', rfl⟩) heq
    · rw [hgrows.same a ha, hgrows.same b hb] at heq
      exact h.twin.inj a b ha hb heq
    · rw [hgrows.same a ha, hc.new r' hr'] at heq
      exact absurd (heq ▸ hge2 r' hr') (Nat.not_le.mpr (hlt2 a ha))
    · rw [hgrows.same b hb, hc.new r hr] at heq
      exact absurd (heq ▸ hge2 r hr) (Nat.not_le.mpr (hlt2 b hb))
    · rw [hc.new r hr, hc.new r' hr'] at heq
      have hsource := hc.copied' r hr
      rw [heq] at hsource
      rw [hinj r r' hr hr' (hc2.injective _ _ _ hsource (hc.copied' r' hr'))]
  · rintro v (hv | ⟨r, hr, rfl⟩)
    · rw [hgrows.same v hv, Store.tags_of_extends hc1 (hlt1 v hv),
        Store.tags_of_extends hc2 (hlt2 v hv), h.twin.tags v hv]
    · have hmap : ∀ i : Option Tag, i.map (fun tag => (⟨rank, tag.hint⟩ : Tag)) =
          (i.map Tag.hint).map fun hint => ⟨rank, hint⟩ := fun i => by cases i <;> rfl
      rw [hc.new r hr, Store.tags_of_copy hc1 (hc.copied r hr),
        Store.tags_of_copy hc2 (hc.copied' r hr), hmap, hmap, hhints r hr]
  · rintro v (hv | ⟨r, hr, rfl⟩)
    · rw [hθ1 v (hlt1 v hv)]
      exact h.twin.plain v hv
    · rw [eq_var_of_copy hc1 hθ1' (hc.copied r hr)]
      exact .var _
  · rintro v (hv | ⟨r, hr, rfl⟩)
    · exact hwithin v hv
    · rw [eq_var_of_copy hc1 hθ1' (hc.copied r hr), within_var]
      exact .inr ⟨r, hr, rfl⟩
  · rintro v (hv | ⟨r, hr, rfl⟩)
    · rw [hgrows.same v hv, hθ2 _ (hlt2 v hv), hθ1 v (hlt1 v hv), h.twin.trees v hv]
      exact (h.twin.plain v hv).subst_congr fun r hr => by
        rw [hgrows.same r (h.twin.within v hv r hr)]
    · rw [hc.new r hr, eq_var_of_copy hc2 hθ2' (hc.copied' r hr),
        eq_var_of_copy hc1 hθ1' (hc.copied r hr), renamed_var, hc.new r hr]

theorem inside_of_copies {s : Store} {qs : List Var} {rank : Rank} {c : Copying}
    (hc : Extends s qs rank c) (hcopied : ∀ r, S r → (r, Copying.renamed c.copies r) ∈ c.copies)
    (hlt : ∀ v, D v → v < s.size) (hrank : 0 < rank) (h : s.tags.Inside D) :
    c.store.tags.Inside (WithCopies D S c) := by
  rintro v tag (hv | ⟨r, hr, rfl⟩) htag
  · rw [Store.tags_of_extends hc (hlt v hv)] at htag
    exact h v tag hv htag
  · rw [Store.tags_of_copy hc (hcopied r hr)] at htag
    obtain ⟨_, _, rfl⟩ := Option.map_eq_some_iff.mp htag
    exact hrank

theorem instantiate (h : Twins O D π s1 θ1 s2 θ2) {u1 : Ty} {m : Meaning}
    (ho : Offers D π s1 θ1 s2 θ2 qs1 t1 qs2 t2 m ρ) {rank : Rank} (hrank : 0 < rank)
    (hinst : s1.Instantiated qs1 rank t1 u1 s1') :
    ∃ u2 s2' E ν θ1' θ2' m', s2.Instantiated qs2 rank t2 u2 s2' ∧
      Twins O E ν s1' θ1' s2' θ2' ∧ Grows D π E ν ∧ Paired E ν s1' θ1' s2' θ2' u1 u2 m' := by
  have hft1 : t1.FirstOrder s1.aliases := by rw [h.left.aliases]; exact ho.firstOrder.1
  have hft2 : t2.FirstOrder s2.aliases := by rw [h.right.aliases]; exact ho.firstOrder.2
  have hm1 : Denotes s1.aliases θ1 t1 m := by rw [h.left.aliases]; exact ho.left
  have hm2 : Denotes s2.aliases θ2 t2 (m.renamed ρ) := by rw [h.right.aliases]; exact ho.right
  obtain ⟨u2, c2, hinst2, _⟩ := h.right.firstOrder.grounded.exists_instance
    h.right.firstOrder.toFormed qs2 rank ho.fits.2
  obtain ⟨c1, rfl, hi1⟩ := Store.instanceOf_of_instantiated h.left.firstOrder h.left.reading hinst
    hft1 ho.fits.1 hm1
  obtain ⟨c2, hstore, hi2⟩ := Store.instanceOf_of_instantiated h.right.firstOrder h.right.reading
    hinst2 hft2 ho.fits.2 hm2
  have hplain := h.left.firstOrder.plain h.left.reading ho.fits.1 hft1 hm1
  have hlive := h.left.firstOrder.live h.left.reading ho.fits.1 hft1 hm1
  rw [hstore] at hinst2
  let S : Var → Prop := fun r => m.Mentions r ∧ r ∈ qs1.map s1.root
  have hcopied : ∀ r, S r → (r, Copying.renamed c1.copies r) ∈ c1.copies := fun r hr => by
    obtain ⟨w, hw⟩ := hi1.covers r hr.1 hr.2
    rw [hi1.copies.renamed_eq hw]
    exact hw
  have hcopied' : ∀ r, S r → (ρ r, Copying.renamed c2.copies (ρ r)) ∈ c2.copies := fun r hr => by
    obtain ⟨w, hw⟩ := hi2.covers (ρ r) (hplain.mentions_renamed.mpr ⟨r, hr.1, rfl⟩)
      ((ho.quantified r hr.1).mp hr.2)
    rw [hi2.copies.renamed_eq hw]
    exact hw
  obtain ⟨ν, hnew, hother⟩ := exists_along
    (fun a b (ha : S a) (hb : S b) => hi1.copies.renamed_inj (hlive.lt ha.1) (hlive.lt hb.1))
    (fun r => Copying.renamed c2.copies (ρ r)) π
  have hcopies : Copies S ρ rank s1 s2 c1 c2 π ν := by
    refine ⟨⟨_, hi1.copies⟩, ⟨_, hi2.copies⟩, hcopied, hcopied', fun v hv => hother v ?_, hnew⟩
    rintro ⟨r, hr, rfl⟩
    exact absurd (hi1.copies.target _ _ (hcopied r hr)).1 (Nat.not_le.mpr hv)
  have hgrows := hcopies.grows h
  obtain ⟨θ1', hleft, hθ1⟩ := @Store.Region.grow _ _ _ _ _ _ h.left _ _ _ hi1.copies
    (WithCopies D S c1) hgrows.sub (by
      rintro v (hv | ⟨r, hr, rfl⟩)
      · exact .inl hv
      · exact .inr (hi1.copies.target _ _ (hcopied r hr)))
  obtain ⟨θ2', hright, hθ2⟩ := @Store.Region.grow _ _ _ _ _ _ h.right _ _ _ hi2.copies
    (Image (WithCopies D S c1) ν)
    (by
      rintro _ ⟨v, hv, rfl⟩
      exact ⟨v, .inl hv, hgrows.same v hv⟩)
    (by
      rintro _ ⟨v, hv | ⟨r, hr, rfl⟩, rfl⟩
      · exact .inl ⟨v, hv, (hgrows.same v hv).symm⟩
      · rw [hnew r hr]
        exact .inr (hi2.copies.target _ _ (hcopied' r hr)))
  have htwin := hcopies.twin h (fun a b ha hb => ho.inj a b ha.1 hb.1)
    (fun r hr => ho.hints r hr.1 hr.2) hleft.reading hright.reading hθ1 hθ2
  have hown : ∀ v, O.own v → WithCopies D S c1 v ∧ ν v = O.names v := fun v hv => by
    obtain ⟨hD, hname⟩ := h.own v hv
    exact ⟨hgrows.sub v hD, (hgrows.same v hD).trans hname⟩
  have hnames : ∀ r, m.Mentions r → WithCopies D S c1 (Copying.renamed c1.copies r) ∧
      ν (Copying.renamed c1.copies r) = Copying.renamed c2.copies (ρ r) := fun r hr => by
    by_cases hq : r ∈ qs1.map s1.root
    · exact ⟨.inr ⟨r, ⟨hr, hq⟩, rfl⟩, hnew r ⟨hr, hq⟩⟩
    · obtain ⟨hD, hρ⟩ := ho.shared r hr hq
      have hq' : ρ r ∉ qs2.map s2.root := fun h => hq ((ho.quantified r hr).mpr h)
      rw [Copying.renamed_of_not_mem fun w hw => hq (hi1.copies.source r w hw).1,
        Copying.renamed_of_not_mem fun w hw => hq' (hi2.copies.source _ w hw).1]
      exact ⟨.inl hD, (hgrows.same r hD).trans hρ.symm⟩
  have htree : (m.renamed ρ).renamed (Copying.renamed c2.copies) =
      (m.renamed (Copying.renamed c1.copies)).renamed ν := by
    simp only [Meaning.renamed, hplain.subst_subst, Meaning.subst]
    exact hplain.subst_congr fun r hr => by rw [(hnames r hr).2]
  refine ⟨u2, c2.store, WithCopies D S c1, ν, θ1', θ2', m.renamed (Copying.renamed c1.copies),
    hinst2, ⟨hleft, hright, htwin, hown,
      inside_of_copies hi1.copies hcopied h.left.lt hrank h.inside⟩,
    hgrows, ⟨?_, ?_, hplain.renamed, fun r hr => ?_, ⟨?_, ?_⟩, hi1.fits, hi2.fits⟩⟩
  · rw [← h.left.aliases]
    exact hi1.tree θ1' hleft.reading
  · rw [← htree, ← h.right.aliases]
    exact hi2.tree θ2' hright.reading
  · obtain ⟨x, hx, rfl⟩ := hplain.mentions_renamed.mp hr
    exact (hnames x hx).1
  · rw [← h.left.aliases]
    exact hi1.firstOrder
  · rw [← h.right.aliases]
    exact hi2.firstOrder

/-! ### Names -/

/-- Schemes in two stores that give a name the same closed type: the trees differ by the names `ρ`
of their variables, and these have the same hints. -/
structure SameOffer (s1 : Store) (θ1 : Valuation) (qs1 : List Var) (t1 : Ty) (s2 : Store)
    (θ2 : Valuation) (qs2 : List Var) (t2 : Ty) (m : Meaning) (ρ : Var → Var) : Prop where
  left : s1.Quantified θ1 qs1 t1 m
  right : s2.Quantified θ2 qs2 t2 (m.renamed ρ)
  inj : ∀ a b, m.Mentions a → m.Mentions b → ρ a = ρ b → a = b
  hints : ∀ r, m.Mentions r → (s2.tags (ρ r)).map Tag.hint = (s1.tags r).map Tag.hint

/-- How two contexts know a name. Inside a group its type is over the group's own variables, and the
quantifiers correspond; from outside of the group it has a closed type. -/
inductive Known (O : Origin) (D : Var → Prop) (π : Var → Var) :
    List Var → Ty → List Var → Ty → Prop where
  | inner {qs1 qs2 : List Var} {t : Ty} : t.FirstOrder [] → (∀ v ∈ t.vars, O.own v) →
      (∀ q ∈ qs1, D q) → (∀ x, x ∈ qs2 ↔ ∃ q ∈ qs1, π q = x) →
      Known O D π qs1 t qs2 (t.renamed O.names)
  | outer {qs1 qs2 : List Var} {t1 t2 : Ty} {m : Meaning} {ρ : Var → Var} :
      SameOffer O.left O.leftTrees qs1 t1 O.right O.rightTrees qs2 t2 m ρ → m.Avoids O.own →
      (m.renamed ρ).Avoids (Image O.own O.names) → Known O D π qs1 t1 qs2 t2

theorem Known.grows (hg : Grows D π E ν) (h : Known O D π qs1 t1 qs2 t2) :
    Known O E ν qs1 t1 qs2 t2 := by
  cases h with
  | inner hft hown hqs himage =>
    refine .inner hft hown (fun q hq => hg.sub q (hqs q hq)) fun x => (himage x).trans ?_
    exact exists_congr fun q => and_congr_right fun hq => by rw [hg.same q (hqs q hq)]
  | outer hsame h1 h2 => exact .outer hsame h1 h2

theorem mem_roots_iff (h : Twins O D π s1 θ1 s2 θ2) (hqs : ∀ q ∈ qs1, D q)
    (himage : ∀ x, x ∈ qs2 ↔ ∃ q ∈ qs1, π q = x) {r : Var} (hr : D r) {c : Tag}
    (htag : s1.tags r = some c) : r ∈ qs1.map s1.root ↔ π r ∈ qs2.map s2.root := by
  obtain ⟨_, hfree, _⟩ := Store.of_tags htag
  obtain ⟨_, hfree', _⟩ := Store.of_tags ((h.twin.tags r hr).trans htag)
  simp only [List.mem_map]
  constructor
  · rintro ⟨q, hq, hroot⟩
    have hk : s1.kind q = .free := by rw [← Store.kind_root h.left.firstOrder.forest, hroot, hfree]
    have htree := h.twin.trees q (hqs q hq)
    rw [h.left.reading.free q hk, hroot, renamed_var] at htree
    exact ⟨π q, (himage _).mpr ⟨q, hq, rfl⟩, ((h.right.firstOrder.eq_var_iff h.right.reading
      (h.right.lt _ ⟨q, hqs q hq, rfl⟩)).mp htree).2⟩
  · rintro ⟨x, hx, hroot⟩
    obtain ⟨q, hq, rfl⟩ := (himage x).mp hx
    have hD := hqs q hq
    have hk : s2.kind (π q) = .free := by
      rw [← Store.kind_root h.right.firstOrder.forest, hroot, hfree']
    have htree := h.twin.trees q hD
    rw [h.right.reading.free _ hk, hroot] at htree
    obtain ⟨b, hb, heq⟩ := eq_var_of_renamed (h.twin.plain q hD) htree.symm
    have hDb : D b := within_var.mp (hb ▸ h.twin.within q hD)
    obtain rfl := h.twin.inj b r hDb hr heq
    exact ⟨q, hq, ((h.left.firstOrder.eq_var_iff h.left.reading (h.left.lt q hD)).mp hb).2⟩

theorem Known.offers (hk : Known O D π qs1 t1 qs2 t2) (h : Twins O D π s1 θ1 s2 θ2)
    (hO1 : O.left.Reads O.leftTrees) (hO2 : O.right.Reads O.rightTrees) :
    ∃ m ρ, Offers D π s1 θ1 s2 θ2 qs1 t1 qs2 t2 m ρ := by
  cases hk with
  | inner hft hown hqs himage =>
    obtain ⟨m, hp⟩ := h.paired hft hown
    have hlive := h.left.toReads.live hp.firstOrder.1 hp.fits.1 hp.left
    refine ⟨m, π, hp.left, hp.right, hp.firstOrder, hp.fits,
      fun a b ha hb => h.twin.inj a b (hp.within a ha) (hp.within b hb), fun r hr => ?_,
      fun r hr _ => ⟨hp.within r hr, rfl⟩, fun r hr _ => by rw [h.twin.tags r (hp.within r hr)]⟩
    obtain ⟨c, hc⟩ := hlive.exists_tag hr
    exact h.mem_roots_iff hqs himage (hp.within r hr) hc
  | outer hsame hown hown' =>
    rename_i m ρ
    have hplain := (hO1.live hsame.left.firstOrder hsame.left.fits hsame.left.denotes).plain
    obtain ⟨hq1, htags1⟩ := h.left.quantified hO1 hsame.left hown
    obtain ⟨hq2, htags2⟩ := h.right.quantified hO2 hsame.right hown'
    have hmen : ∀ r, m.Mentions r → (m.renamed ρ).Mentions (ρ r) := fun r hr =>
      hplain.mentions_renamed.mpr ⟨r, hr, rfl⟩
    refine ⟨m, ρ, hq1.denotes, hq2.denotes, ⟨hq1.firstOrder, hq2.firstOrder⟩, ⟨hq1.fits, hq2.fits⟩,
      hsame.inj, fun r hr => iff_of_true (hq1.closed r hr) (hq2.closed _ (hmen r hr)),
      fun r hr hq => absurd (hq1.closed r hr) hq, fun r hr _ => ?_⟩
    rw [htags1 r hr, htags2 _ (hmen r hr)]
    exact hsame.hints r hr

def Agree (O : Origin) (D : Var → Prop) (π : Var → Var) (ctx1 ctx2 : Context) (name : String) :
    Prop :=
  ∀ scheme1 u1, Assoc.get? ctx1 name = some scheme1 → scheme1.typeOf? name = some u1 →
    ∃ scheme2 u2, Assoc.get? ctx2 name = some scheme2 ∧ scheme2.typeOf? name = some u2 ∧
      Known O D π scheme1.quantifiers u1 scheme2.quantifiers u2

theorem Agree.grows (hg : Grows D π E ν) (h : Agree O D π ctx1 ctx2 name) :
    Agree O E ν ctx1 ctx2 name :=
  fun scheme1 u1 hget htype => by
    obtain ⟨scheme2, u2, hget', htype', hknown⟩ := h scheme1 u1 hget htype
    exact ⟨scheme2, u2, hget', htype', hknown.grows hg⟩

theorem Agree.bindNames {scheme1 scheme2 : Scheme} (h1 : scheme1.header = header)
    (h2 : scheme2.header = Assoc.mapValues (Ty.renamed O.names) header) (hknown : ∀ e ∈ header,
      Known O D π scheme1.quantifiers e.2 scheme2.quantifiers (e.2.renamed O.names))
    (h : name ∉ Assoc.keys header → Agree O D π ctx1 ctx2 name) :
    Agree O D π (Solver.bindNames ctx1 header scheme1)
      (Solver.bindNames ctx2 (Assoc.mapValues (Ty.renamed O.names) header) scheme2) name := by
  intro scheme u hget htype
  rw [Solver.get?_bindNames] at hget
  rw [Solver.get?_bindNames, Assoc.keys_mapValues]
  split at hget
  · rename_i hmem
    cases hget
    rw [Scheme.typeOf?, h1] at htype
    refine ⟨scheme2, u.renamed O.names, if_pos hmem, ?_, hknown _ (Assoc.mem_of_get? htype)⟩
    rw [Scheme.typeOf?, h2, Assoc.get?_mapValues, htype]
    rfl
  · rename_i hmem
    rw [if_neg hmem]
    exact h hmem scheme u hget htype

theorem mem_generalizable_iff (h : Twins O D π s1 θ1 s2 θ2)
    (hheader : ∀ e ∈ header, e.2.FirstOrder [] ∧ ∀ v ∈ e.2.vars, O.own v) (outer : Rank) :
    (∀ q ∈ s1.generalizable header outer, D q) ∧
    ∀ x, x ∈ s2.generalizable (Assoc.mapValues (Ty.renamed O.names) header) outer ↔
      ∃ q ∈ s1.generalizable header outer, π q = x := by
  have hD : ∀ e ∈ header, ∀ v ∈ e.2.vars, D v ∧ π v = O.names v := fun e he v hv =>
    h.own v ((hheader e he).2 v hv)
  have hlt : ∀ e ∈ header, ∀ v ∈ e.2.vars, v < s1.size := fun e he v hv =>
    h.left.lt v (hD e he v hv).1
  have hlt2 : ∀ e ∈ Assoc.mapValues (Ty.renamed O.names) header, ∀ v ∈ e.2.vars, v < s2.size := by
    intro e he v hv
    obtain ⟨f, hf, rfl⟩ := List.mem_map.mp he
    obtain ⟨w, hw, rfl⟩ := Ty.mem_vars_renamed.mp hv
    obtain ⟨hDw, heq⟩ := hD f hf w hw
    exact h.right.lt _ ⟨w, hDw, heq⟩
  simp only [h.left.toReads.mem_generalizable hlt, h.right.toReads.mem_generalizable hlt2]
  refine ⟨fun q ⟨e, he, v, hv, hmen, _⟩ => h.twin.within v (hD e he v hv).1 q hmen, fun x => ?_⟩
  constructor
  · rintro ⟨_, he2, v2, hv2, hmen, c, hc, hle⟩
    obtain ⟨e, he, rfl⟩ := List.mem_map.mp he2
    obtain ⟨v, hv, rfl⟩ := Ty.mem_vars_renamed.mp hv2
    obtain ⟨hDv, heq⟩ := hD e he v hv
    rw [← heq, h.twin.trees v hDv, (h.twin.plain v hDv).mentions_renamed] at hmen
    obtain ⟨r, hr, rfl⟩ := hmen
    rw [h.twin.tags r (h.twin.within v hDv r hr)] at hc
    exact ⟨r, ⟨e, he, v, hv, hr, c, hc, hle⟩, rfl⟩
  · rintro ⟨r, ⟨e, he, v, hv, hr, c, hc, hle⟩, rfl⟩
    obtain ⟨hDv, heq⟩ := hD e he v hv
    refine ⟨_, List.mem_map.mpr ⟨e, he, rfl⟩, O.names v, Ty.mem_vars_renamed.mpr ⟨v, hv, rfl⟩, ?_,
      c, by rw [h.twin.tags r (h.twin.within v hDv r hr), hc], hle⟩
    rw [← heq, h.twin.trees v hDv]
    exact (h.twin.plain v hDv).mentions_renamed.mpr ⟨r, hr, rfl⟩

end Twins

/-! ## Solving in both stores -/

theorem Constraint.mem_unbound_append {c : Constraint} {o : Occurrence} (scope : List String)
    {inner : List String} (h : o ∈ c.unbound inner) :
    o.1 ∈ scope ∨ o ∈ c.unbound (scope ++ inner) := by
  induction c generalizing inner with
  | trivial => cases h
  | checkpoint => cases h
  | equal => cases h
  | conj items ih =>
    rw [unbound, unboundAll_eq, List.mem_flatMap] at h
    obtain ⟨c, hc, ho⟩ := h
    rw [unbound, unboundAll_eq]
    exact (ih c hc ho).imp_right fun ho => List.mem_flatMap.mpr ⟨c, hc, ho⟩
  | letIn vars header defs body ihd ihb =>
    rcases List.mem_append.mp h with h | h
    · exact (ihd h).imp_right fun h => List.mem_append_left _ h
    · have hscope : ∀ x, x ∈ scope ++ (Assoc.keys header ++ inner) ↔
          x ∈ Assoc.keys header ++ (scope ++ inner) := by simp [or_left_comm]
      refine (ihb h).imp_right fun h => List.mem_append_right _ ?_
      rwa [unbound_congr hscope] at h
  | instanceOf name ty span =>
    rw [unbound] at h ⊢
    split at h
    · cases h
    · rename_i hname
      obtain rfl := List.mem_singleton.mp h
      by_cases hscope : name ∈ scope
      · exact .inl hscope
      · exact .inr (by simp [hname, hscope])

open Twins in
theorem Solves.twins {O : Origin} (hO1 : O.left.Reads O.leftTrees)
    (hO2 : O.right.Reads O.rightTrees) {ctx1 ctx2 : Context} {rank : Rank} {c : Constraint}
    {s1 s1' s2 : Store} {θ1 θ2 : Valuation} (h : Solves ctx1 rank c s1 s1') (hrank : 0 < rank)
    (htypes : c.Types (Ty.FirstOrder [])) (hown : ∀ v, c.Mentions v → O.own v)
    (hnames : ∀ o ∈ c.unbound [], Agree O D π ctx1 ctx2 o.1) (ht : Twins O D π s1 θ1 s2 θ2) :
    ∃ s2' E ν θ1' θ2', Solves ctx2 rank (c.renamed O.names) s2 s2' ∧
      Twins O E ν s1' θ1' s2' θ2' ∧ Grows D π E ν := by
  induction h generalizing ctx2 D π s2 θ1 θ2 with
  | trivial => exact ⟨s2, D, π, θ1, θ2, .trivial, ht, .refl⟩
  | checkpoint => exact ⟨s2, D, π, θ1, θ2, .checkpoint, ht, .refl⟩
  | equal h =>
    cases htypes with | equal hl hr => ?_
    obtain ⟨ml, hml⟩ := ht.paired hl fun v hv => hown v (.expected hv)
    obtain ⟨mr, hmr⟩ := ht.paired hr fun v hv => hown v (.actual hv)
    obtain ⟨s2', θ1', θ2', hrun, ht'⟩ := ht.unify hml hmr h
    exact ⟨s2', D, π, θ1', θ2', .equal hrun, ht', .refl⟩
  | @instanceOf ctx rank name ty u u' span scheme s s1 s' hget htype hinst hrun =>
    cases htypes with | instanceOf hty => ?_
    have hagree := hnames (name, span) (by simp [Constraint.unbound])
    obtain ⟨scheme2, u2, hget2, htype2, hknown⟩ := hagree scheme u hget htype
    obtain ⟨m, ρ, hoffers⟩ := hknown.offers ht hO1 hO2
    obtain ⟨u2', t2, E, ν, θ1', θ2', m', hinst2, ht', hgrows, hpair⟩ :=
      ht.instantiate hoffers hrank hinst
    obtain ⟨ml, hml⟩ := ht'.paired hty fun v hv => hown v (.instanceOf hv)
    obtain ⟨s2', θ1'', θ2'', hrun2, ht''⟩ := ht'.unify hml hpair hrun
    exact ⟨s2', E, ν, θ1'', θ2'', .instanceOf hget2 htype2 hinst2 hrun2, ht'', hgrows⟩
  | nil => exact ⟨s2, D, π, θ1, θ2, .nil, ht, .refl⟩
  | @cons ctx rank c cs s s1 s' _ _ ih ih' =>
    cases htypes with | conj htypes => ?_
    obtain ⟨t2, E, ν, θ1', θ2', hsolves, ht', hgrows⟩ := ih hrank (htypes c (by simp))
      (fun v hv => hown v (.item (by simp) hv))
      (fun o ho => hnames o (by simp [Constraint.unbound, Constraint.unboundAll, ho])) ht
    obtain ⟨s2', F, κ, θ1'', θ2'', hsolves', ht'', hgrows'⟩ := ih' hrank
      (.conj fun d hd => htypes d (by simp [hd]))
      (fun v hv => hown v (by cases hv with | item hd hv => exact .item (by simp [hd]) hv))
      (fun o ho => (hnames o (by
        rw [Constraint.unbound] at ho
        simp [Constraint.unbound, Constraint.unboundAll, ho])).grows hgrows) ht'
    exact ⟨s2', F, κ, θ1'', θ2'', .cons hsolves hsolves', ht'', hgrows.trans hgrows'⟩
  | @letIn ctx rank vars header defs body qs s s1 s1' s' _ hgen _ ih ih' =>
    cases htypes with | letIn hheader hdefs hbody => ?_
    obtain ⟨t2, E, ν, θ1', θ2', hsolves, ht', hgrows⟩ := ih (Nat.succ_pos rank) hdefs
      (fun v hv => hown v (.defs hv))
      (fun o ho => hnames o (by simp [Constraint.unbound, ho])) ht
    have hown' : ∀ e ∈ header, e.2.FirstOrder [] ∧ ∀ v ∈ e.2.vars, O.own v := fun e he =>
      ⟨hheader e he, fun v hv => hown v (.header he hv)⟩
    obtain ⟨hqs, himage⟩ := ht'.mem_generalizable_iff hown' rank
    obtain ⟨_, heq, hr1⟩ := Store.generalize_eq ht'.left.firstOrder.forest.linksEnd header rank
    cases hgen.symm.trans heq
    obtain ⟨t2', hgen2, hr2⟩ := Store.generalize_eq ht'.right.firstOrder.forest.linksEnd
      (Assoc.mapValues (Ty.renamed O.names) header) rank
    have hscheme : ∀ o ∈ body.unbound [], Agree O E ν
        (Solver.bindNames ctx header ⟨s1.generalizable header rank, vars, defs, header⟩)
        (Solver.bindNames ctx2 (Assoc.mapValues (Ty.renamed O.names) header)
          ⟨t2.generalizable (Assoc.mapValues (Ty.renamed O.names) header) rank, vars.map O.names,
            defs.renamed O.names, Assoc.mapValues (Ty.renamed O.names) header⟩) o.1 := by
      refine fun o ho => .bindNames rfl rfl
        (fun e he => .inner (hown' e he).1 (hown' e he).2 hqs himage) fun hmem => ?_
      have ho' := (Constraint.mem_unbound_append (Assoc.keys header) ho).resolve_left hmem
      refine (hnames o ?_).grows hgrows
      exact List.mem_append_right _ ho'
    obtain ⟨s2', F, κ, θ1'', θ2'', hsolves', ht'', hgrows'⟩ := ih' hrank hbody
      (fun v hv => hown v (.body hv)) hscheme (ht'.relinked hr1 hr2)
    exact ⟨s2', F, κ, θ1'', θ2'', .letIn hsolves hgen2 hsolves', ht'', hgrows.trans hgrows'⟩

end TypeSolver
