import TypeSolver.Proofs.Ranks

/-!
# TypeSolver.Proofs.Avoidance

Unifications that keep away from some of the unbound classes. The frame of `Runs.spares` is about
what types lead to through bindings. Here it is about what they mean: fields that others hide and
extensions that are no rows lead to classes which the meaning of a type does not mention.

If the meanings of the types in a call avoid a set of variables, then after the call the unbound
classes of the set are unbound as before, and no other class has come to mention them
(`Runs.keepsApart`). This needs that the call keeps to the strict guard: otherwise a class may be
put under one of another meaning.
-/

namespace TypeSolver

/-! ## Meanings that avoid variables -/

namespace Meaning

variable {Q : Var → Prop} {m : Meaning}

def Avoids (Q : Var → Prop) (m : Meaning) : Prop := ∀ r, m.Mentions r → ¬ Q r

theorem avoids_var {r : Var} : (Meaning.var r).Avoids Q ↔ ¬ Q r :=
  ⟨fun h => h r .var, fun h x hx => by rwa [← mentions_var.mp hx]⟩

theorem avoids_func {a b : Meaning} : (func a b).Avoids Q ↔ a.Avoids Q ∧ b.Avoids Q :=
  ⟨fun h => ⟨fun r hr => h r (.arg hr), fun r hr => h r (.ret hr)⟩,
    fun h r hr => (mentions_func.mp hr).elim (h.1 r) (h.2 r)⟩

theorem avoids_app {name : String} {args : List Meaning} :
    (app name args).Avoids Q ↔ ∀ a ∈ args, a.Avoids Q :=
  ⟨fun h _ ha r hr => h r (.app ha hr), fun h r hr => by
    obtain ⟨a, ha, hr⟩ := mentions_app.mp hr
    exact h a ha r hr⟩

theorem avoids_record {fields : List (String × Meaning)} :
    (record fields none).Avoids Q ↔ ∀ f ∈ fields, f.2.Avoids Q := by
  refine ⟨fun h f hf r hr => h r (.field hf hr), fun h r hr => ?_⟩
  cases hr with
  | field hf hr => exact h _ hf r hr

variable {f : String × Meaning} {ext : Option Meaning}

theorem mentions_close_of_field {fields : List (String × Meaning)} (hs : Assoc.Sorted fields)
    (hf : f ∈ fields) {r : Var} (hr : f.2.Mentions r) : (close fields m).Mentions r := by
  cases m with
  | record more rest =>
    refine .field (Assoc.mem_of_get? (k := f.1) (a := f.2) ?_) hr
    rw [Assoc.get?_union hs, Assoc.get?_of_mem hs hf, Option.some_or]
  | _ => exact .field hf hr

theorem Avoids.fields {fields : List (String × Meaning)} (hs : Assoc.Sorted fields)
    (h : (row fields ext).Avoids Q) (hf : f ∈ fields) : f.2.Avoids Q := by
  intro r hr
  cases ext with
  | none => exact h r (.field hf hr)
  | some m => exact h r (mentions_close_of_field hs hf hr)

theorem avoids_row {fields : List (String × Meaning)} (hf : ∀ f ∈ fields, f.2.Avoids Q)
    (hext : ∀ m, ext = some m → m.Avoids Q) : (row fields ext).Avoids Q := by
  cases ext with
  | none => exact avoids_record.mpr hf
  | some m =>
    intro r hr
    rcases mentions_close hr with ⟨f, hmem, hr⟩ | hr
    · exact hf f hmem r hr
    · exact hext m rfl r hr

theorem Avoids.subst {σ : Valuation} (h : ∀ x, m.Mentions x → (σ x).Avoids Q) :
    (m.subst σ).Avoids Q := by
  intro r hr
  obtain ⟨x, hx, hr⟩ := exists_mentions_of_subst hr
  exact h x hx r hr

end Meaning

theorem Denotes.avoids {table : AliasTable} (hu : table.Usable) {θ : Valuation} {Q : Var → Prop}
    {t : Ty} {m : Meaning} (h : Denotes table θ t m) (ht : t.Over fun v => (θ v).Avoids Q) :
    m.Avoids Q := by
  induction h with
  | var v => exact Ty.over_var.mp ht
  | func _ _ iha ihr =>
    obtain ⟨ha, hr⟩ := Ty.over_func.mp ht
    exact Meaning.avoids_func.mpr ⟨iha ha, ihr hr⟩
  | expanded hex _ ih => exact ih (hu.expand_over hex (Ty.over_app.mp ht))
  | app _ hlen _ ih =>
    refine Meaning.avoids_app.mpr fun b hb => ?_
    obtain ⟨a, ha, hab⟩ := exists_of_forall₂_right (forall₂_of_zip hlen ih) hb
    exact hab (Ty.over_app.mp ht a ha)
  | record hk _ ih =>
    obtain ⟨_, hf, hext⟩ := Ty.over_record.mp ht
    refine Meaning.avoids_row (fun f hmem => ?_) fun m hm => ?_
    · obtain ⟨e, he, _, hef⟩ := (Assoc.related_of_zip hk ih).exists_left hmem
      exact hef (hf e he)
    · obtain ⟨v, hv, rfl⟩ := Option.map_eq_some_iff.mp hm
      exact hext v hv

namespace Store

variable {s s' s'' : Store} {θ : Valuation} {Q : Var → Prop} {t : Ty}

/-! ## Types that avoid variables -/

variable {r v : Var} {rank : Rank} {a l : Ty} {ext : Option Var} {k n : Nat} {row : Row} {c : Call}

theorem Reading.reaches_of_mentions (hθ : s.Reading θ) (hs : s.Intact) (hv : v < s.size)
    (hr : (θ v).Mentions r) : s.Reaches v r ∧ s.kind r = .free := by
  induction v using (hs.grounded.mentions hs.forest).induction with
  | _ v ih =>
    cases hk : s.kind v with
    | poisoned => exact absurd hk (hs.healthy v hv)
    | free =>
      rw [hθ.free v hk, Meaning.mentions_var] at hr
      subst hr
      exact ⟨.refl, by rw [kind_root hs.forest, hk]⟩
    | bound t =>
      have hfits := hs.fits v t hk
      by_contra hn
      refine (hθ.bound v t hk).avoids (Q := (· = r)) hs.usable
        (hfits.restrict fun w hw x hx => ?_) r hr rfl
      rintro rfl
      obtain ⟨hwr, hfree⟩ := ih w ⟨t, hk, hw⟩ (hfits.lt hw) hx
      exact hn ⟨.head ((edge_root hs.forest).mpr ⟨t, hk, w, hw, rfl⟩) hwr, hfree⟩

theorem Reading.exists_of_mentions (hθ : s.Reading θ) (hs : s.Intact) (ht : t.Fits s.size)
    {m : Meaning} (hm : Denotes s.aliases θ t m) (hr : m.Mentions r) :
    s.kind r = .free ∧ s.root r = r ∧ ∃ v ∈ t.vars, s.Reaches v r := by
  by_contra hn
  refine hm.avoids (Q := (· = r)) hs.usable (ht.restrict fun v hv x hx => ?_) r hr rfl
  rintro rfl
  obtain ⟨hvx, hfree⟩ := hθ.reaches_of_mentions hs (ht.lt hv) hx
  exact hn ⟨hfree, hvx.root_eq hs.forest, v, hv, hvx⟩

def Avoids (s : Store) (Q : Var → Prop) (t : Ty) : Prop :=
  ∀ θ m, s.Reading θ → Denotes s.aliases θ t m → m.Avoids Q

theorem avoids_var : s.Avoids Q (.var v) ↔ ∀ θ, s.Reading θ → (θ v).Avoids Q :=
  ⟨fun h θ hθ => h θ _ hθ (.var v), fun h θ m hθ hm => by
    rw [Denotes.var_iff.mp hm]; exact h θ hθ⟩

theorem avoids_root : s.Avoids Q (.var (s.root v)) ↔ s.Avoids Q (.var v) := by
  simp only [avoids_var]
  exact forall₂_congr fun θ hθ => by rw [hθ.root]

theorem Avoids.not_of_free (h : s.Avoids Q (.var v)) (hs : s.Intact) (hk : s.kind v = .free) :
    ¬ Q (s.root v) := by
  obtain ⟨θ, hθ⟩ := hs.grounded.exists_reading hs.toFormed hs.usable
  have hv := avoids_var.mp h θ hθ
  rwa [hθ.free v hk, Meaning.avoids_var] at hv

theorem Avoids.not_of_unbound (h : s.Avoids Q (.var v)) (hs : s.Intact) (hr : s.root v = v)
    {hint : Option String} (hc : s.content v = .unbound rank hint) : ¬ Q v := by
  have := h.not_of_free hs (kind_eq_free.mpr ⟨_, _, hc⟩)
  rwa [hr] at this

theorem avoids_var_of_free (hk : s.kind v = .free) (hv : ¬ Q (s.root v)) : s.Avoids Q (.var v) :=
  avoids_var.mpr fun θ hθ => by rw [hθ.free v hk]; exact Meaning.avoids_var.mpr hv

theorem Avoids.of_bound (h : s.Avoids Q (.var v)) (hk : s.kind v = .bound t) :
    s.Avoids Q t := fun θ m hθ hm => by
  rw [hm.unique (hθ.bound v t hk)]
  exact avoids_var.mp h θ hθ

theorem Avoids.func {b : Ty} (h : s.Avoids Q (.func a b)) (hs : s.Intact) :
    s.Avoids Q a ∧ s.Avoids Q b := by
  refine ⟨fun θ m hθ hm => ?_, fun θ m hθ hm => ?_⟩
  · obtain ⟨m', hm'⟩ := hs.usable.exists_denotes θ b
    exact (Meaning.avoids_func.mp (h θ _ hθ (.func hm hm'))).1
  · obtain ⟨m', hm'⟩ := hs.usable.exists_denotes θ a
    exact (Meaning.avoids_func.mp (h θ _ hθ (.func hm' hm))).2

theorem Avoids.arg {name : String} {args : List Ty} (h : s.Avoids Q (.app name args))
    (hs : s.Intact) (hne : ∀ t, s.aliases.expand name args ≠ some (.ok t)) (ha : a ∈ args) :
    s.Avoids Q a := by
  intro θ m hθ hm
  obtain ⟨ms, hms⟩ := exists_forall₂ fun b (_ : b ∈ args) => hs.usable.exists_denotes θ b
  obtain ⟨m', hmem, hm'⟩ := exists_of_forall₂_left hms ha
  rw [hm.unique hm']
  exact Meaning.avoids_app.mp (h θ _ hθ ((Denotes.app_iff hne).mpr ⟨ms, rfl, hms⟩)) m' hmem

theorem Avoids.field {fields : List (String × Ty)} (h : s.Avoids Q (.record fields ext))
    (hs : s.Intact) (hfits : (Ty.record fields ext).Fits s.size) {f : String × Ty}
    (hf : f ∈ fields) : s.Avoids Q f.2 := by
  intro θ m hθ hm
  obtain ⟨hsort, _⟩ := Ty.over_record.mp hfits
  obtain ⟨ms, hms⟩ := Assoc.exists_related fun f _ => hs.usable.exists_denotes θ f.2
  obtain ⟨f', hmem, _, hm'⟩ := exists_of_forall₂_left hms hf
  rw [hm.unique hm']
  exact (h θ _ hθ (Denotes.record_iff.mpr ⟨ms, rfl, hms⟩)).fields (hms.sorted_iff.mp hsort) hmem

theorem avoids_record {fields : List (String × Ty)} (hf : ∀ f ∈ fields, s.Avoids Q f.2)
    (hext : ∀ v, ext = some v → s.Avoids Q (.var v)) : s.Avoids Q (.record fields ext) := by
  intro θ m hθ hm
  obtain ⟨ms, rfl, hms⟩ := Denotes.record_iff.mp hm
  refine Meaning.avoids_row (fun f hmem => ?_) fun m hm => ?_
  · obtain ⟨e, he, _, hef⟩ := hms.exists_left hmem
    exact hf e he θ _ hθ hef
  · obtain ⟨v, hv, rfl⟩ := Option.map_eq_some_iff.mp hm
    exact avoids_var.mp (hext v hv) θ hθ

structure RowAvoids (s : Store) (Q : Var → Prop) (row : Row) : Prop where
  fields : ∀ f ∈ row.fields, s.Avoids Q f.2
  tail : ∀ v, row.tail = .opened v → s.Avoids Q (.var v)

theorem row_avoids (hs : s.Intact) {fields : List (String × Ty)} (h : s.row k fields ext = some row)
    (hfits : (Ty.record fields ext).Fits s.size) (hav : s.Avoids Q (.record fields ext)) :
    s.RowAvoids Q row := by
  refine row_induction (motive := fun fields ext row => (Ty.record fields ext).Fits s.size →
    s.Avoids Q (.record fields ext) → s.RowAvoids Q row) ?_ ?_ ?_ ?_ ?_ h hfits hav
  · exact fun fields hfits hav => ⟨fun f hf => hav.field hs hfits hf, fun v hv => by cases hv⟩
  · intro fields v _ _ hc hfits hav
    refine ⟨fun f hf => hav.field hs hfits hf, ?_⟩
    rintro _ ⟨⟩
    have hk : s.kind v = .free := kind_eq_free.mpr ⟨_, _, hc⟩
    refine avoids_root.mpr (avoids_var.mpr fun θ hθ => ?_)
    obtain ⟨m, hm⟩ := hs.usable.exists_denotes θ (.record fields (some v))
    have hm' := hav θ m hθ hm
    obtain ⟨ms, rfl, _⟩ := Denotes.record_iff.mp hm
    rw [hθ.free v hk]
    rw [Option.map_some, hθ.free v hk] at hm'
    exact Meaning.avoids_var.mpr (hm' _ .ext)
  · exact fun fields v _ hfits hav => ⟨fun f hf => hav.field hs hfits hf, fun v hv => by cases hv⟩
  · intro k fields v t more rest row hc hhead ih hfits hav
    have hk : s.kind v = .bound t := kind_eq_bound.mpr hc
    have hmore := (hs.usable.head_settled (hs.fits v t hk) hhead).1
    refine ih (Ty.over_union hfits hmore) fun θ m hθ hm => ?_
    have hv := (AliasTable.head_denotes hhead).mp (hθ.bound v t hk)
    obtain ⟨hsort, hfields, _⟩ := Ty.over_record.mp hfits
    obtain ⟨ms, hms⟩ := Assoc.exists_related fun f _ => hs.usable.exists_denotes θ f.2
    rw [hm.unique (Denotes.union hθ.tidy hsort (Ty.over_record.mp hmore).1 hms hv)]
    exact hav θ _ hθ (Denotes.record_iff.mpr ⟨ms, rfl, hms⟩)
  · exact fun _ fields v _ _ _ _ _ hfits hav =>
      ⟨fun f hf => hav.field hs hfits hf, fun v hv => by cases hv⟩

theorem RowAvoids.without {row' : Row} (h : s.RowAvoids Q row)
    (hext : ∀ v, ext = some v → s.Avoids Q (.var v)) :
    s.Avoids Q (.record (Assoc.without row.fields row'.fields) ext) :=
  avoids_record (fun f hf => h.fields f (List.mem_of_mem_filter hf)) hext

/-! ## Classes that are kept apart -/

/-- No unbound class outside `Q` has the rank of the outside. -/
def Raised (Q : Var → Prop) (s : Store) : Prop :=
  ∀ v k, s.rank? v = some k → ¬ Q (s.root v) → 0 < k

/-- From `s` to `s'` the unbound classes with the property `Q` stay unbound, no class without it
comes to mention them, and no class without it sinks to the rank of the outside. -/
structure KeepsApart (Q : Var → Prop) (s s' : Store) : Prop where
  intact : s'.Intact
  size_le : s.size ≤ s'.size
  aliases : s'.aliases = s.aliases
  solved : ∀ θ, s'.SolvedBy θ → s.SolvedBy θ
  kept : ∀ r, Q r → s.root r = r → s.kind r = .free → s'.root r = r ∧ s'.kind r = .free
  clear : ∀ r, s.root r = r → s.kind r = .free → ¬ Q r → s'.Avoids Q (.var r)
  new : ∀ v, s.size ≤ v → v < s'.size → s'.Avoids Q (.var v)
  raised : ∀ Z : Var → Prop, (∀ v, Z v → Q v) → s.Raised Z → s'.Raised Z

theorem KeepsApart.of_roots (hs' : s'.Intact) (hsize : s'.size = s.size)
    (haliases : s'.aliases = s.aliases) (hsolved : ∀ θ, s'.SolvedBy θ → s.SolvedBy θ)
    (hraised : ∀ Z : Var → Prop, (∀ v, Z v → Q v) → s.Raised Z → s'.Raised Z) (hroots : ∀ r, s.root r = r → s.kind r = .free →
      s'.root r = r ∧ s'.kind r = .free ∨ ¬ Q r ∧ s'.Avoids Q (.var r)) : KeepsApart Q s s' where
  intact := hs'
  size_le := hsize.ge
  aliases := haliases
  solved := hsolved
  kept r hq hr hk := (hroots r hr hk).resolve_right fun h => h.1 hq
  clear r hr hk hq := by
    rcases hroots r hr hk with ⟨hr', hk'⟩ | ⟨_, h⟩
    · exact avoids_var_of_free hk' (by rwa [hr'])
    · exact h
  new v hv hv' := absurd (hsize ▸ hv') (Nat.not_lt.mpr hv)
  raised := hraised

theorem KeepsApart.avoids (h : KeepsApart Q s s') (hs : s.Intact) (ht : t.Fits s.size)
    (hav : s.Avoids Q t) : s'.Avoids Q t := by
  intro θ' m' hθ' hm'
  obtain ⟨θ, hθ⟩ := hs.grounded.exists_reading hs.toFormed hs.usable
  obtain ⟨m, hm⟩ := hs.usable.exists_denotes θ t
  have hsubst := (h.solved θ' hθ'.toSolvedBy).denotes_subst hθ hs.grounded hs.toFormed hs.usable ht hm
  rw [h.aliases] at hm'
  rw [hm'.unique hsubst]
  refine Meaning.Avoids.subst fun x hx => ?_
  obtain ⟨hk, hr, _⟩ := hθ.exists_of_mentions hs ht hm hx
  exact avoids_var.mp (h.clear x hr hk (hav θ m hθ hm x hx)) θ' hθ'

theorem KeepsApart.trans (h : KeepsApart Q s s') (h' : KeepsApart Q s' s'') :
    KeepsApart Q s s'' where
  intact := h'.intact
  size_le := h.size_le.trans h'.size_le
  aliases := h'.aliases.trans h.aliases
  solved θ hθ := h.solved θ (h'.solved θ hθ)
  kept r hq hr hk := by
    obtain ⟨hr', hk'⟩ := h.kept r hq hr hk
    exact h'.kept r hq hr' hk'
  clear r hr hk hq := by
    have hlt : r < s'.size := (lt_of_kind (by simp [hk])).trans_le h.size_le
    exact h'.avoids h.intact (Ty.over_var.mpr hlt) (h.clear r hr hk hq)
  new v hv hv' := by
    rcases Nat.lt_or_ge v s'.size with hlt | hge
    · exact h'.avoids h.intact (Ty.over_var.mpr hlt) (h.new v hv hlt)
    · exact h'.new v hge hv'
  raised Z hZ hs := h'.raised Z hZ (h.raised Z hZ hs)

section

variable (hs : s.Intact)

include hs

theorem KeepsApart.refl : KeepsApart Q s s :=
  .of_roots hs rfl rfl (fun _ h => h) (fun _ _ h => h) fun _ hr hk => .inl ⟨hr, hk⟩

theorem KeepsApart.of_alike (hf : s'.Forest) (hal : Alike s s')
    (hraised : ∀ Z : Var → Prop, (∀ v, Z v → Q v) → s.Raised Z → s'.Raised Z) : KeepsApart Q s s' :=
  .of_roots (Steps.intact (.single (.alike hf hal)) hs) hal.size hal.aliases
    (fun _ => hal.solvedBy.mp) hraised fun r hr hk =>
      .inl ⟨(hal.root r).trans hr, (hal.kind r).trans hk⟩

theorem KeepsApart.of_content (hf : s'.Forest) (hal : Alike s s')
    (hcon : ∀ v, s'.content v = s.content v) : KeepsApart Q s s' := by
  refine .of_alike hs hf hal fun Z _ hraised v k hk hq => ?_
  rw [rank?, hcon, ← rank?] at hk
  exact hraised v k hk (by rwa [← hal.root])

theorem KeepsApart.fresh (hQ : ∀ q, Q q → q < s.size) (hrank : 0 < rank) (hint : Option String) :
    KeepsApart Q s (s.fresh rank hint).2 := by
  obtain ⟨_, hroot, hcon⟩ := fresh_view hs.forest rank hint
  have hs' : (s.fresh rank hint).2.Intact := Steps.intact (.single (.fresh rank hint)) hs
  have hkind : ∀ r, s.kind r = .free → (s.fresh rank hint).2.kind r = .free := by
    intro r hk
    rw [kind, hcon, if_neg (Nat.ne_of_lt (lt_of_kind (by simp [hk])))]
    exact hk
  refine ⟨hs', by simp, fresh_aliases s rank hint, fun _ => solvedBy_of_fresh hs.toFormed,
    fun r _ hr hk => ⟨(hroot r).trans hr, hkind r hk⟩, fun r hr hk hq => ?_, fun v hv hv' => ?_,
    fun Z _ hraised v k hk hq => ?_⟩
  · exact avoids_var_of_free (hkind r hk) (by rwa [hroot, hr])
  · rw [fresh_size] at hv'
    obtain rfl : v = s.size := Nat.le_antisymm (Nat.lt_succ_iff.mp hv') hv
    refine avoids_var_of_free (by rw [kind, hcon, if_pos rfl]; rfl) fun hq => ?_
    rw [hroot, (Forest.root_of_size_le hv).1] at hq
    exact Nat.lt_irrefl _ (hQ _ hq)
  · rw [rank?_eq_some] at hk
    obtain ⟨hint', hk⟩ := hk
    rw [hcon] at hk
    split at hk
    · cases hk; exact hrank
    · exact hraised v k (rank?_eq_some.mpr ⟨hint', hk⟩) (by rwa [← hroot])

theorem KeepsApart.lowerRanks (ht : t.Fits s.size) (hrank : 0 < rank) :
    KeepsApart Q s (s.lowerRanks (s.reach t) rank) := by
  obtain ⟨hf, hal⟩ := lowerRanks_reach hs.toFormed t rank
  refine .of_alike hs hf hal fun Z _ hraised v k hk hq => ?_
  obtain ⟨hint, hk⟩ := rank?_eq_some.mp hk
  rw [lowerRanks_content hs.forest rank (reach_lt hs.toFormed ht)] at hk
  rw [hal.root] at hq
  split at hk
  · cases hc : s.content v with
    | unbound current hint' =>
      rw [hc] at hk
      cases hk
      exact Nat.lt_min.mpr ⟨hraised v current (rank?_eq_some.mpr ⟨_, hc⟩) hq, hrank⟩
    | bound u => rw [hc] at hk; cases hk
    | poisoned => rw [hc] at hk; cases hk
  · exact hraised v k (rank?_eq_some.mpr ⟨hint, hk⟩) hq

theorem not_mem_reach_lowered (ht : t.Fits s.size) {a : Var} (hn : a ∉ s.reach t) :
    a ∉ (s.lowerRanks (s.reach t) rank).reach t := by
  obtain ⟨hf, hal⟩ := lowerRanks_reach hs.toFormed t rank
  rw [mem_reach (hal.formed hf hs.toFormed) (hal.size ▸ ht)]
  simp only [hal.reaches]
  rwa [← mem_reach hs.toFormed ht]

end

section Writes

variable (hs : s.Intact)

include hs

theorem avoids_of_adopted (hsolved : ∀ θ, s'.SolvedBy θ → s.SolvedBy θ)
    (haliases : s'.aliases = s.aliases) {a : Var} (hn : a ∉ s.reach t) (ht : t.Fits s.size)
    (hav : s.Avoids Q t) (hbound : s'.kind a = .bound t)
    (hother : ∀ r, r ≠ a → s.root r = r → s.kind r = .free → s'.root r = r ∧ s'.kind r = .free) :
    s'.Avoids Q (.var a) := by
  refine avoids_var.mpr fun θ' hθ' => ?_
  obtain ⟨θ, hθ⟩ := hs.grounded.exists_reading hs.toFormed hs.usable
  obtain ⟨m, hm⟩ := hs.usable.exists_denotes θ t
  have hsubst := (hsolved θ' hθ'.toSolvedBy).denotes_subst hθ hs.grounded hs.toFormed hs.usable ht hm
  have ha := hθ'.bound a t hbound
  rw [haliases] at ha
  rw [ha.unique hsubst]
  refine Meaning.Avoids.subst fun x hx => ?_
  obtain ⟨hk, hr, v, hv, hvx⟩ := hθ.exists_of_mentions hs ht hm hx
  have hxa : x ≠ a := by
    rintro rfl
    exact hn ((mem_reach hs.toFormed ht).mpr ⟨v, hv, hvx⟩)
  obtain ⟨hr', hk'⟩ := hother x hxa hr hk
  rw [hθ'.free x hk', hr', Meaning.avoids_var]
  exact hav θ m hθ hm x hx

theorem KeepsApart.bind {a : Var} (ha : a < s.size) (hra : s.root a = a) (hka : s.kind a = .free)
    (hqa : ¬ Q a) (ht : t.Fits s.size) (hn : a ∉ s.reach t) (hav : s.Avoids Q t) :
    KeepsApart Q s (s.put a (.bound t)) := by
  obtain ⟨hf, hroot, hcon⟩ := put_view hs.forest ha hra (.bound t)
  have hsolved : ∀ θ, (s.put a (.bound t)).SolvedBy θ → s.SolvedBy θ := fun _ hθ =>
    ((put_solvedBy hs.forest ha hra hka).mp hθ).1
  have hother : ∀ r, r ≠ a → s.root r = r → s.kind r = .free →
      (s.put a (.bound t)).root r = r ∧ (s.put a (.bound t)).kind r = .free := by
    intro r hne hr hk
    rw [kind, hcon, if_neg (by rwa [hr]), hroot]
    exact ⟨hr, hk⟩
  refine .of_roots (Steps.intact (.single (.bind ha hra hka ht hn)) hs) (put_size ..)
    (put_aliases ..) hsolved (fun Z _ hraised v k hk hq => ?_) fun r hr hk => ?_
  · obtain ⟨hint, hk⟩ := rank?_eq_some.mp hk
    rw [hcon] at hk
    split at hk
    · cases hk
    · exact hraised v k (rank?_eq_some.mpr ⟨hint, hk⟩) (by rwa [← hroot])
  · by_cases hra' : r = a
    · subst hra'
      refine .inr ⟨hqa, avoids_of_adopted hs hsolved (put_aliases ..) hn ht hav ?_ hother⟩
      rw [kind, hcon, if_pos hra]
      rfl
    · exact .inl (hother r hra' hr hk)

section Link

variable {a b : Var} (ha : a < s.size) (hb : b < s.size) (hra : s.root a = a) (hrb : s.root b = b)
  (hab : a ≠ b)

include ha hb hra hrb hab

theorem KeepsApart.link (hn : ¬ s.Reaches b a)
    (hsolved : ∀ θ, (s.link a b).SolvedBy θ → s.SolvedBy θ)
    (hav : s.kind a = .free →
      ¬ Q a ∧ ∃ u, s.kind b = .bound u ∧ a ∉ s.reach u ∧ s.Avoids Q u) :
    KeepsApart Q s (s.link a b) := by
  obtain ⟨hf, hroot, hcon⟩ := link_view hs.forest ha hb hra hrb hab
  have hother : ∀ r, r ≠ a → s.root r = r → s.kind r = .free →
      (s.link a b).root r = r ∧ (s.link a b).kind r = .free := by
    intro r hne hr hk
    rw [kind, hcon, if_neg (by rwa [hr]), hroot, if_neg (by rwa [hr])]
    exact ⟨hr, hk⟩
  refine .of_roots (Steps.intact (.single (.link ha hb hra hrb hab (.inl hn))) hs) (link_size ..)
    (link_aliases ..) hsolved (fun Z _ hraised v k hk hq => ?_) fun r hr hk => ?_
  · obtain ⟨hint, hk⟩ := rank?_eq_some.mp hk
    rw [hcon] at hk
    rw [hroot] at hq
    split at hk
    · rename_i heq
      rw [if_pos heq] at hq
      exact hraised b k (rank?_eq_some.mpr ⟨hint, hk⟩) (by rwa [hrb])
    · rename_i hne
      rw [if_neg hne] at hq
      exact hraised v k (rank?_eq_some.mpr ⟨hint, hk⟩) hq
  · by_cases hra' : r = a
    · subst hra'
      obtain ⟨hq, u, hkb, hn, hav⟩ := hav hk
      refine .inr ⟨hq, avoids_of_adopted hs hsolved (link_aliases ..) hn (hs.fits b u hkb) hav ?_
        hother⟩
      rw [link_kind hs.forest ha hb hra hrb hab, if_pos hra, hkb]
    · exact .inl (hother r hra' hr hk)

theorem KeepsApart.merge {rankA rankB : Rank} {hintA hintB : Option String}
    (hca : s.content a = .unbound rankA hintA) (hcb : s.content b = .unbound rankB hintB)
    (hqa : ¬ Q a) (hqb : ¬ Q b) : KeepsApart Q s
      ((s.link a b).put b (.unbound (min rankA rankB) (hintB <|> hintA))) := by
  have hkb : s.kind b = .free := kind_eq_free.mpr ⟨_, _, hcb⟩
  obtain ⟨hf, hroot, hcon⟩ := link_view hs.forest ha hb hra hrb hab
  obtain ⟨hf', hal⟩ := merge_alike hs.forest ha hb hra hrb hab hkb (min rankA rankB)
    (hintB <|> hintA)
  have hrootb : (s.link a b).root b = b := by rw [hroot, hrb, if_neg hab.symm]
  obtain ⟨_, _, hcon'⟩ := put_view hf (link_size s a b ▸ hb) hrootb
    (.unbound (min rankA rankB) (hintB <|> hintA))
  have hlink : (s.link a b).Intact := Steps.intact (.single (.link ha hb hra hrb hab
    (.inl (not_reaches_of_kind hrb hab (by simp [hkb]))))) hs
  have hkind : ∀ r, s.kind r = .free → (s.link a b).kind r = .free := by
    intro r hk
    rw [link_kind hs.forest ha hb hra hrb hab]
    split
    · exact hkb
    · exact hk
  refine .of_roots (Steps.intact (.single (.alike hf' hal)) hlink) (hal.size.trans (link_size ..))
    (hal.aliases.trans (link_aliases ..))
    (fun θ hθ => solvedBy_of_link hs.forest ha hb hra hrb hab (kind_eq_free.mpr ⟨_, _, hca⟩)
      (hal.solvedBy.mp hθ)) (fun Z hZ hraised v k hk hq => ?_) fun r hr hk => ?_
  · obtain ⟨hint, hk⟩ := rank?_eq_some.mp hk
    rw [hcon'] at hk
    rw [hal.root, hroot] at hq
    split at hk
    · cases hk
      exact Nat.lt_min.mpr
        ⟨hraised a rankA (rank?_eq_some.mpr ⟨_, hca⟩) (by rw [hra]; exact fun h => hqa (hZ a h)),
          hraised b rankB (rank?_eq_some.mpr ⟨_, hcb⟩) (by rw [hrb]; exact fun h => hqb (hZ b h))⟩
    · rename_i hne
      rw [hroot] at hne
      split at hne
      · exact absurd rfl hne
      · rename_i hne'
        rw [hcon, if_neg hne'] at hk
        rw [if_neg hne'] at hq
        exact hraised v k (rank?_eq_some.mpr ⟨hint, hk⟩) hq
  · rw [hal.root, hal.kind, hroot]
    by_cases hra' : r = a
    · subst hra'
      refine .inr ⟨hqa, avoids_var_of_free ((hal.kind r).trans (hkind r hk)) ?_⟩
      rwa [hal.root, hroot, if_pos hra]
    · rw [if_neg (by rwa [hr])]
      exact .inl ⟨hr, hkind r hk⟩

end Link
end Writes

/-! ## Calls -/

/-- The types that a call is about avoid the property, and a variable that it is to make has a rank
of the inside. -/
def Call.Avoids (s : Store) (Q : Var → Prop) : Call → Prop
  | .types l r => s.Avoids Q l ∧ s.Avoids Q r
  | .vars v w => s.Avoids Q (.var v) ∧ s.Avoids Q (.var w)
  | .var _ v t => s.Avoids Q (.var v) ∧ s.Avoids Q t
  | .terms l r => s.Avoids Q l ∧ s.Avoids Q r
  | .rows rowL rowR _ _ => s.RowAvoids Q rowL ∧ s.RowAvoids Q rowR
  | .tails v w rank onlyLeft onlyRight => s.Avoids Q (.var v) ∧ s.Avoids Q (.var w) ∧
      s.Avoids Q (.record onlyLeft none) ∧ s.Avoids Q (.record onlyRight none) ∧ 0 < rank

section Raised

variable (hs : s.Intact) (hraised : s.Raised Q)

include hs hraised

theorem KeepsApart.adopt {a b : Var} (ha : a < s.size) (hb : b < s.size) (hra : s.root a = a)
    (hrb : s.root b = b) (hab : a ≠ b) {hint : Option String}
    (hca : s.content a = .unbound rank hint) (hkb : s.kind b = .bound t) (hn : a ∉ s.reach t)
    (hqa : ¬ Q a) (hav : s.Avoids Q t) :
    KeepsApart Q s ((s.lowerRanks (s.reach t) rank).link a b) := by
  have hrank : 0 < rank := hraised a rank (rank?_eq_some.mpr ⟨hint, hca⟩) (by rwa [hra])
  have ht := hs.fits b t hkb
  have hlow := KeepsApart.lowerRanks (Q := Q) hs ht hrank
  obtain ⟨hf, hal⟩ := lowerRanks_reach hs.toFormed t rank
  have hka : s.kind a = .free := kind_eq_free.mpr ⟨_, _, hca⟩
  refine hlow.trans (KeepsApart.link hlow.intact (hal.size ▸ ha) (hal.size ▸ hb)
    ((hal.root a).trans hra) ((hal.root b).trans hrb) hab ?_
    (fun θ hθ =>
      hal.solvedBy.mpr (adopted_sound hs.toWellFormed .refl t rank ha hb hra hrb hab hka hθ).1)
    fun _ => ⟨hqa, t, (hal.kind b).trans hkb, not_mem_reach_lowered hs ht hn, hlow.avoids hs ht hav⟩)
  rw [hal.reaches]
  exact not_reaches_of_not_mem hs.toFormed hrb hab hkb hn

theorem raised_tail {w : Var} (hv : s.Avoids Q (.var v)) (hw : s.Avoids Q (.var w))
    (h : tailRank s v w = some rank) : 0 < rank := by
  have hpos : ∀ {x k}, s.Avoids Q (.var x) → s.rank? x = some k → 0 < k := fun hav hk =>
    hraised _ _ hk (hav.not_of_free hs (kind_eq_free_iff_rank?.mpr ⟨_, hk⟩))
  rw [tailRank] at h
  split at h
  · cases h
  · rename_i hk _; cases h; exact hpos hv hk
  · rename_i _ hk; cases h; exact hpos hw hk
  · rename_i hk hk'; cases h; exact Nat.lt_min.mpr ⟨hpos hv hk, hpos hw hk'⟩

end Raised

theorem KeepsApart.rowAvoids (h : KeepsApart Q s s') (hs : s.Intact)
    (hfits : (rowType row).Fits s.size) (hav : s.RowAvoids Q row) : s'.RowAvoids Q row := by
  obtain ⟨_, hfields, hext⟩ := Ty.over_record.mp hfits
  refine ⟨fun f hf => h.avoids hs (hfields f hf) (hav.fields f hf), fun v hv => ?_⟩
  exact h.avoids hs (Ty.over_var.mpr (hext v (by simp only [hv]))) (hav.tail v hv)

theorem KeepsApart.call (h : KeepsApart Q s s') (hs : s.Intact) (hfit : c.Fits s.size)
    (hc : c.Avoids s Q) : c.Avoids s' Q := by
  cases c with
  | types => exact ⟨h.avoids hs hfit.1 hc.1, h.avoids hs hfit.2 hc.2⟩
  | vars => exact ⟨h.avoids hs (Ty.over_var.mpr hfit.1) hc.1, h.avoids hs (Ty.over_var.mpr hfit.2) hc.2⟩
  | var => exact ⟨h.avoids hs (Ty.over_var.mpr hfit.1) hc.1, h.avoids hs hfit.2 hc.2⟩
  | terms => exact ⟨h.avoids hs hfit.1 hc.1, h.avoids hs hfit.2 hc.2⟩
  | rows => exact ⟨h.rowAvoids hs hfit.1 hc.1, h.rowAvoids hs hfit.2.1 hc.2⟩
  | tails =>
    obtain ⟨hv, hw, hl, hr, hrank⟩ := hc
    exact ⟨h.avoids hs (Ty.over_var.mpr hfit.1) hv, h.avoids hs (Ty.over_var.mpr hfit.2.1) hw,
      h.avoids hs hfit.2.2.1 hl, h.avoids hs hfit.2.2.2 hr, hrank⟩

theorem Avoids.settled (h : s.Avoids Q t) {t' : Ty} (ht : s.aliases.head k t = some (.settled t')) :
    s.Avoids Q t' :=
  fun θ m hθ hm => h θ m hθ ((AliasTable.head_denotes ht).mpr hm)

theorem operands_avoid (hs : s.Intact) {r : Ty}
    (hnl : ∀ f as, l = .app f as → s.aliases.expand f as = none)
    (hnr : ∀ f as, r = .app f as → s.aliases.expand f as = none) (hl : s.Avoids Q l)
    (hr : s.Avoids Q r) {p : Ty × Ty} (hp : p ∈ operands l r) :
    s.Avoids Q p.1 ∧ s.Avoids Q p.2 := by
  have hne : ∀ {f as}, s.aliases.expand f as = none → ∀ t, s.aliases.expand f as ≠ some (.ok t) :=
    fun h t ht => by rw [h] at ht; cases ht
  unfold operands at hp
  split at hp
  · obtain ⟨ha, hb⟩ := hl.func hs
    obtain ⟨hc, hd⟩ := hr.func hs
    rcases List.mem_pair.mp hp with rfl | rfl
    · exact ⟨ha, hc⟩
    · exact ⟨hb, hd⟩
  · split at hp
    · obtain ⟨hp1, hp2⟩ := List.of_mem_zip hp
      exact ⟨hl.arg hs (hne (hnl _ _ rfl)) hp1, hr.arg hs (hne (hnr _ _ rfl)) hp2⟩
    · cases hp
  · cases hp

theorem Poses.avoids {c' : Call} (h : Poses s c c') (hs : s.Intact) (hraised : s.Raised Q)
    (hfit : c.Fits s.size) (hc : c.Avoids s Q) : c'.Avoids s Q := by
  cases h with
  | varVar => exact hc
  | varLeft => exact hc
  | varRight => exact hc.symm
  | noVar => exact hc
  | swapped => exact hc.symm
  | rootVars => exact ⟨avoids_root.mpr hc.1, avoids_root.mpr hc.2⟩
  | rootVar => exact ⟨avoids_root.mpr hc.1, hc.2⟩
  | join ha hb => exact ⟨hc.1.of_bound (kind_eq_bound.mpr ha), hc.2.of_bound (kind_eq_bound.mpr hb)⟩
  | @bound side a t u ha =>
    have hu := hc.1.of_bound (kind_eq_bound.mpr ha)
    cases side with
    | left => exact ⟨hu, hc.2⟩
    | right => exact ⟨hc.2, hu⟩
  | head hl hr => exact ⟨hc.1.settled hl, hc.2.settled hr⟩
  | operand hl hr hq =>
    exact operands_avoid hs (hs.usable.head_settled hfit.1 hl).2 (hs.usable.head_settled hfit.2 hr).2
      (hc.1.settled hl) (hc.2.settled hr) hq
  | record hl hr hrowL hrowR =>
    exact ⟨row_avoids hs hrowL (hs.usable.head_settled hfit.1 hl).1 (hc.1.settled hl),
      row_avoids hs hrowR (hs.usable.head_settled hfit.2 hr).1 (hc.2.settled hr)⟩
  | field hq =>
    obtain ⟨k, hq1, hq2⟩ := mem_shared hq
    exact ⟨hc.1.fields _ hq1, hc.2.fields _ (Assoc.mem_of_get? hq2)⟩
  | tail h =>
    cases h with
    | openLeft _ hv => exact ⟨hc.1.tail _ hv, hc.2.without nofun⟩
    | openRight _ _ hw => exact ⟨hc.2.tail _ hw, hc.1.without nofun⟩
    | openBoth _ hv hw hrank =>
      exact ⟨hc.1.tail _ hv, hc.2.tail _ hw, hc.1.without nofun, hc.2.without nofun,
        raised_tail hs hraised (hc.1.tail _ hv) (hc.2.tail _ hw) hrank⟩

theorem KeepsApart.join {a b : Var} {r : Ty} {s1 : Store} (hs : s.Intact) (ha : a < s.size)
    (hb : b < s.size) (hca : s.content a = .bound l) (hcb : s.content b = .bound r)
    (h : Runs .strict n (.terms l r) s (.unified s1)) (hs' : s'.Intact) (hle : s.size ≤ s'.size)
    (hal : Alike s1 s') (hne : s'.root a ≠ s'.root b)
    (hguard : ¬ s'.Reaches (s'.root b) (s'.root a)) :
    KeepsApart Q s' (s'.link (s'.root a) (s'.root b)) := by
  have hka := kind_eq_bound.mpr hca
  have hkb := kind_eq_bound.mpr hcb
  have ha' := hs'.forest.root_lt (ha.trans_le hle)
  have hb' := hs'.forest.root_lt (hb.trans_le hle)
  have hra := hs'.forest.root_root a
  have hrb := hs'.forest.root_root b
  have hagree : ∀ θ, s'.SolvedBy θ → θ (s'.root a) = θ (s'.root b) := by
    intro θ hθ
    obtain ⟨hθ0, m, hl, hr⟩ := h.sound hs ⟨hs.fits a l hka, hs.fits b r hkb⟩ s1 rfl hs θ
      (hal.solvedBy.mp hθ)
    rw [hθ.root, hθ.root, (hθ0.bound a l hka).unique hl, (hθ0.bound b r hkb).unique hr]
  refine .link hs' ha' hb' hra hrb hne hguard (fun θ hθ => ?_) fun hk => ?_
  · exact solvedBy_of_join hs'.toWellFormed ha' hb' hra hrb hne hs'.grounded
      (grounded_link hs'.grounded hs'.toFormed ha' hb' hra hrb hne hguard) hagree hθ
  · -- an unbound class that has the meaning of the other would be led to by it
    obtain ⟨θ, hθ⟩ := hs'.grounded.exists_reading hs'.toFormed hs'.usable
    have hmentions : (θ (s'.root b)).Mentions (s'.root a) := by
      rw [← hagree θ hθ.toSolvedBy, hθ.free _ hk, hra]
      exact .var
    exact absurd (hθ.reaches_of_mentions hs' hb' hmentions).1 hguard

theorem keepsApart_tracker (n : Nat) : Tracker .strict (Runs .strict n)
    (fun (_ : Unit) c s => s.Intact ∧ s.Raised Q ∧ (∀ q, Q q → q < s.size) ∧ c.Fits s.size ∧
      c.Avoids s Q) fun _ s o => ∀ s', o = .unified s' → KeepsApart Q s s' where
  forest hc := hc.1.forest
  lt hc := hc.2.2.2.1.1
  lt' hc := hc.2.2.2.1.1
  poses hc h := by
    obtain ⟨hs, hraised, hQ, hfit, hav⟩ := hc
    exact ⟨hs, hraised, hQ, h.fits hs.toWellFormed hfit, h.avoids hs hraised hfit hav⟩
  next {_ s s'} h := by
    have hkeeps := h s' rfl
    refine ⟨(), fun c hc => ?_, fun o ho s'' hs'' => hkeeps.trans (ho s'' hs'')⟩
    obtain ⟨hs, hraised, hQ, hfit, hav⟩ := hc
    exact ⟨hkeeps.intact, hkeeps.raised Q (fun _ h => h) hraised,
      fun q hq => (hQ q hq).trans_le hkeeps.size_le, hfit.mono hkeeps.size_le,
      hkeeps.call hs hfit hav⟩
  refl hc := by
    rintro _ ⟨⟩
    exact .refl hc.1
  found hc hv h := by
    rintro _ ⟨⟩
    obtain ⟨-, hf, hal, hcon⟩ := find_spec hc.1.forest hv h
    exact .of_content hc.1 hf hal hcon
  mismatch _ := nofun
  poison _ _ _ := nofun
  rest {_ v w rank onlyLeft onlyRight s} hc := by
    obtain ⟨hs, hraised, hQ, hfit, hv, hw, hl, hr, hrank⟩ := hc
    have hfresh := KeepsApart.fresh hs hQ hrank none
    have hrest := hfresh.new s.size le_rfl (by simp)
    have hopen : ∀ {fields : List (String × Ty)}, (Ty.record fields none).Fits s.size →
        s.Avoids Q (.record fields none) →
        (s.fresh rank none).2.Avoids Q (.record fields (some s.size)) := fun hfits hav =>
      avoids_record (fun f hmem => hfresh.avoids hs ((Ty.over_record.mp hfits).2.1 f hmem)
        (hav.field hs hfits hmem)) (by rintro _ ⟨⟩; exact hrest)
    have hraised' := hfresh.raised Q (fun _ h => h) hraised
    have hQ' : ∀ q, Q q → q < (s.fresh rank none).2.size := fun q hq =>
      (hQ q hq).trans_le hfresh.size_le
    obtain ⟨_, ⟨_, hleft⟩, ⟨_, hright⟩, _⟩ :=
      (after_tracker .strict (Runs .strict n)).rest (x := ()) ⟨hs.toWellFormed, hfit⟩
    exact ⟨(), ⟨hfresh.intact, hraised', hQ', hleft, hfresh.avoids hs (Ty.over_var.mpr hfit.1) hv,
      hopen hfit.2.2.2 hr⟩, ⟨hfresh.intact, hraised', hQ', hright,
      hfresh.avoids hs (Ty.over_var.mpr hfit.2.1) hw, hopen hfit.2.2.1 hl⟩,
      fun o ho s' hs' => hfresh.trans (ho s' hs')⟩
  under hc _ _ _ hcb := absurd (kind_eq_poisoned.mpr hcb) (hc.1.healthy _ hc.2.2.2.1.2)
  merge hc hra hrb hab hca hcb := by
    rintro _ ⟨⟩
    obtain ⟨hs, -, -, ⟨ha, hb⟩, hava, havb⟩ := hc
    exact .merge hs ha hb hra hrb hab hca hcb (hava.not_of_unbound hs hra hca)
      (havb.not_of_unbound hs hrb hcb)
  adopt hc hra hrb hab hca hcb hn := by
    rintro _ ⟨⟩
    obtain ⟨hs, hraised, -, ⟨ha, hb⟩, hava, havb⟩ := hc
    have hkb := kind_eq_bound.mpr hcb
    exact .adopt hs hraised ha hb hra hrb hab hca hkb hn (hava.not_of_unbound hs hra hca)
      (havb.of_bound hkb)
  bind {_ _ a t s rank hint} hc hra hca hn := by
    rintro _ ⟨⟩
    obtain ⟨hs, hraised, -, ⟨ha, ht⟩, hava, hav⟩ := hc
    have hqa := hava.not_of_unbound hs hra hca
    have hlow := KeepsApart.lowerRanks (Q := Q) hs ht
      (hraised a rank (rank?_eq_some.mpr ⟨hint, hca⟩) (by rwa [hra]))
    obtain ⟨_, hal⟩ := lowerRanks_reach hs.toFormed t rank
    refine hlow.trans (.bind hlow.intact (hal.size ▸ ha) ((hal.root a).trans hra) ?_ hqa
      (hal.size ▸ ht) (not_mem_reach_lowered hs ht hn) (hlow.avoids hs ht hav))
    rw [hal.kind]
    exact kind_eq_free.mpr ⟨_, _, hca⟩
  join {_ a b s l r s1 s2} hc hca hcb h hkeeps _ hal hne hguard := by
    rintro _ ⟨⟩
    have hkeeps := hkeeps s2 rfl
    obtain ⟨hs, -, -, ⟨ha, hb⟩, -⟩ := hc
    exact hkeeps.trans (.join hs ha hb hca hcb h hkeeps.intact hkeeps.size_le hal hne hguard)

theorem Runs.keepsApart (h : Runs .strict n c s (.unified s')) (hs : s.Intact)
    (hfit : c.Fits s.size) (hraised : s.Raised Q) (hQ : ∀ q, Q q → q < s.size) (hc : c.Avoids s Q) :
    KeepsApart Q s s' :=
  h.tracked keepsApart_tracker (x := ()) ⟨hs, hraised, hQ, hfit, hc⟩ s' rfl

end Store
end TypeSolver
