import TypeSolver.Proofs.Trees

/-!
# TypeSolver.Proofs.Traces

Runs of the unifier as derivations on trees. Every successful call on first-order types takes the
tags and the reading of its store to those of the store that it leaves by a derivation of `Unifies`
(`Runs.traced`). Therefore what a call does to trees, ranks and hints depends on trees, ranks and
hints only.
-/

namespace TypeSolver

open Meaning

namespace Store

variable {s s1 s' : Store} {θ : Valuation} {t : Ty} {a b r : Var} {ws : Pairs}

def tags (s : Store) : Tags := fun r =>
  if s.root r = r then
    match s.content r with
    | .unbound rank hint => some ⟨rank, hint⟩
    | _ => none
  else none

variable {rank : Rank} {hint : Option String} {m : Meaning} {P : Pairs → Prop}

theorem tags_of_unbound (hr : s.root r = r) (hc : s.content r = .unbound rank hint) :
    s.tags r = some ⟨rank, hint⟩ := by
  rw [tags, if_pos hr, hc]

theorem tags_of_root_ne (hr : s.root r ≠ r) : s.tags r = none := if_neg hr

theorem tags_of_not_free (hk : s.kind r ≠ .free) : s.tags r = none := by
  rw [tags]
  cases hc : s.content r with
  | unbound rank hint => exact absurd (kind_eq_free.mpr ⟨_, _, hc⟩) hk
  | _ => split <;> rfl

theorem tags_of_bound (hc : s.content r = .bound t) : s.tags r = none :=
  tags_of_not_free (by rw [kind_eq_bound.mpr hc]; simp)

theorem tags_congr (hr : s'.root r = s.root r) (hc : s'.content r = s.content r) :
    s'.tags r = s.tags r := by
  rw [tags, tags, hr, hc]

theorem of_tags {c : Tag} (h : s.tags r = some c) :
    s.root r = r ∧ s.kind r = .free ∧ s.rank? r = some c.rank := by
  rw [tags] at h
  split at h
  · rename_i hr
    cases hc : s.content r with
    | unbound rank hint =>
      rw [hc] at h
      cases h
      exact ⟨hr, kind_eq_free.mpr ⟨_, _, hc⟩, rank?_eq_some.mpr ⟨hint, hc⟩⟩
    | _ => rw [hc] at h; cases h
  · cases h

theorem FirstOrder.exists_reading (hs : s.FirstOrder) : ∃ θ, s.Reading θ :=
  hs.grounded.exists_reading hs.toFormed hs.usable

theorem FirstOrder.eq_var_iff (hs : s.FirstOrder) (hθ : s.Reading θ) {v : Var} (hv : v < s.size) :
    θ v = .var r ↔ s.kind v = .free ∧ s.root v = r := by
  constructor
  · intro h
    cases hk : s.kind v with
    | free => rw [hθ.free v hk] at h; exact ⟨rfl, Meaning.var.inj h⟩
    | bound t => exact absurd h ((hs.terms v t hk).1.ne_var (hs.terms v t hk).2 (hθ.bound v t hk) r)
    | poisoned => exact absurd hk (hs.healthy v hv)
  · rintro ⟨hk, rfl⟩
    exact hθ.free v hk

structure Live (s : Store) (m : Meaning) : Prop where
  plain : m.Plain
  within : m.Within fun r => s.kind r = .free ∧ s.root r = r

def LivePairs (s : Store) (ws : Pairs) : Prop := ∀ w ∈ ws, s.Live w.1 ∧ s.Live w.2

theorem FirstOrder.plain_reading (hs : s.FirstOrder) (hθ : s.Reading θ) {v : Var}
    (hv : v < s.size) : (θ v).Plain := by
  induction v using (hs.grounded.mentions hs.forest).induction with
  | _ v ih =>
    cases hk : s.kind v with
    | poisoned => exact absurd hk (hs.healthy v hv)
    | free => rw [hθ.free v hk]; exact .var _
    | bound t =>
      have hfits := hs.fits v t hk
      exact (hs.terms v t hk).1.plain (hθ.bound v t hk) fun w hw => ih w ⟨t, hk, hw⟩ (hfits.lt hw)

theorem FirstOrder.plain (hs : s.FirstOrder) (hθ : s.Reading θ) (ht : t.Fits s.size)
    (hft : t.FirstOrder s.aliases) (hm : Denotes s.aliases θ t m) : m.Plain :=
  hft.plain hm fun _ hv => hs.plain_reading hθ (ht.lt hv)

theorem FirstOrder.live (hs : s.FirstOrder) (hθ : s.Reading θ) (ht : t.Fits s.size)
    (hft : t.FirstOrder s.aliases) (hm : Denotes s.aliases θ t m) : s.Live m := by
  refine ⟨hs.plain hθ ht hft hm, fun r hr => ?_⟩
  obtain ⟨hk, hroot, _⟩ := hθ.exists_of_mentions hs.toIntact ht hm hr
  exact ⟨hk, hroot⟩

namespace Live

variable {m : Meaning} {σ : Valuation}

theorem lt (h : s.Live m) (hr : m.Mentions r) : r < s.size :=
  lt_of_kind (by simp [(h.within r hr).1])

theorem exists_tag (h : s.Live m) (hr : m.Mentions r) : ∃ c, s.tags r = some c := by
  obtain ⟨hk, hroot⟩ := h.within r hr
  obtain ⟨rank, hint, hc⟩ := kind_eq_free.mp hk
  exact ⟨_, tags_of_unbound hroot hc⟩

theorem subst_eq (h : s.Live m) (hθ : s.Reading θ) : m.subst θ = m :=
  h.plain.subst_eq_self fun r hr => by rw [hθ.free r (h.within r hr).1, (h.within r hr).2]

theorem subst (h : s.Live m) (hs1 : s1.FirstOrder) (hθ : s1.Reading θ) (hle : s.size ≤ s1.size) :
    s1.Live (m.subst θ) := by
  have hlt : ∀ x, m.Mentions x → x < s1.size := fun x hx => Nat.lt_of_lt_of_le (h.lt hx) hle
  refine ⟨h.plain.subst fun x hx => hs1.plain_reading hθ (hlt x hx), fun r hr => ?_⟩
  obtain ⟨x, hx, hr⟩ := exists_mentions_of_subst hr
  obtain ⟨hk, hroot, _⟩ := hθ.exists_of_mentions hs1.toIntact (t := .var x)
    (Ty.over_var.mpr (hlt x hx)) (.var x) hr
  exact ⟨hk, hroot⟩

theorem subst_subst (h : s.Live m) (hs1 : s1.FirstOrder) (hθ : s1.Reading θ) (hσ : s1.SolvedBy σ)
    (hle : s.size ≤ s1.size) : (m.subst θ).subst σ = m.subst σ := by
  rw [h.plain.subst_subst]
  refine h.plain.subst_congr fun x hx => ?_
  exact (hσ.eq_subst hθ hs1.grounded hs1.toFormed hs1.usable x
    (Nat.lt_of_lt_of_le (h.lt hx) hle)).symm

end Live

theorem LivePairs.subst_eq (h : s.LivePairs ws) (hθ : s.Reading θ) : ws.subst θ = ws := by
  refine (List.map_congr_left fun w hw => ?_).trans (List.map_id' ws)
  rw [(h w hw).1.subst_eq hθ, (h w hw).2.subst_eq hθ]

/-! ### Binding a class -/

theorem tags_lowerRanks (hs : s.FirstOrder) (hθ : s.Reading θ) (ht : t.Fits s.size)
    (hft : t.FirstOrder s.aliases) (hm : Denotes s.aliases θ t m) (rank : Rank) (x : Var) :
    (m.Mentions x → (s.lowerRanks (s.reach t) rank).tags x =
      (s.tags x).map fun c => ⟨min c.rank rank, c.hint⟩) ∧
    (¬ m.Mentions x → (s.lowerRanks (s.reach t) rank).tags x = s.tags x) := by
  have hroot := (lowerRanks_reach hs.toFormed t rank).2.root x
  have hcon := lowerRanks_content hs.forest rank (reach_lt hs.toFormed ht) x
  constructor
  · intro hx
    obtain ⟨hk, hr, w, hw, hreach⟩ := hθ.exists_of_mentions hs.toIntact ht hm hx
    obtain ⟨k, hint, hc⟩ := kind_eq_free.mp hk
    rw [if_pos ⟨x, (mem_reach hs.toFormed ht).mpr ⟨w, hw, hreach⟩, rfl⟩, hc] at hcon
    rw [tags_of_unbound hr hc, tags_of_unbound (hroot.trans hr) hcon]
    rfl
  · intro hx
    split at hcon
    · rename_i hmem
      obtain ⟨v, hv, hvx⟩ := hmem
      by_cases hr : s.root x = x
      · obtain ⟨w, hw, hreach⟩ := (mem_reach hs.toFormed ht).mp hv
        rw [hreach.root_eq hs.forest, hr] at hvx
        subst hvx
        cases hc : s.content v with
        | unbound k hint =>
          refine absurd ((hft.mentions_iff hm).mpr ⟨w, hw, ?_⟩) hx
          exact (hs.mentions_iff hθ (ht.lt hw)).mpr ⟨hreach, kind_eq_free.mpr ⟨k, hint, hc⟩⟩
        | bound u => rw [tags_of_bound hc, tags_of_bound (by rw [hcon, hc]; rfl)]
        | poisoned => exact tags_congr hroot (by rw [hcon, hc]; rfl)
      · rw [tags_of_root_ne hr, tags_of_root_ne (by rw [hroot]; exact hr)]
    · exact tags_congr hroot hcon

theorem binds_of_adopt (hs : s.FirstOrder) (hθ : s.Reading θ) (ht : t.Fits s.size)
    (hft : t.FirstOrder s.aliases) (hnv : t.isVar = false) (hm : Denotes s.aliases θ t m)
    (hn : ¬ m.Mentions a) (hra : s.root a = a) (hca : s.content a = .unbound rank hint)
    (hgone : s'.tags a = none)
    (hkept : ∀ x, x ≠ a → s'.tags x = (s.lowerRanks (s.reach t) rank).tags x) :
    s.tags.Binds a m s'.tags := by
  have hvar : m.isVar = false := by
    cases hmv : m with
    | var r => exact absurd hmv (hft.ne_var hnv hm r)
    | _ => rfl
  refine ⟨hgone, fun x hx => ?_, fun x hxa hx => ?_⟩
  · rw [hkept x fun h => hn (h ▸ hx), (tags_lowerRanks hs hθ ht hft hm rank x).1 hx,
      tags_of_unbound hra hca, hvar]
    cases s.tags x <;> rfl
  · rw [hkept x hxa, (tags_lowerRanks hs hθ ht hft hm rank x).2 hx]

/-- The tags after an unbound class went under another. -/
theorem binds_of_merge (hs : s.FirstOrder) (ha : a < s.size) (hb : b < s.size)
    (hra : s.root a = a) (hrb : s.root b = b) (hab : a ≠ b) {rankA rankB : Rank}
    {hintA hintB : Option String} (hca : s.content a = .unbound rankA hintA)
    (hcb : s.content b = .unbound rankB hintB) :
    s.tags.Binds a (.var b)
      ((s.link a b).put b (.unbound (min rankA rankB) (hintB <|> hintA))).tags := by
  obtain ⟨hf, hro, hco⟩ := link_view hs.forest ha hb hra hrb hab
  have hrb' : (s.link a b).root b = b := by rw [hro, hrb, if_neg (Ne.symm hab)]
  obtain ⟨_, hro', hco'⟩ := put_view hf (by rw [link_size]; exact hb) hrb'
    (.unbound (min rankA rankB) (hintB <|> hintA))
  refine ⟨tags_of_root_ne ?_, fun x hx => ?_, fun x hxa hx => ?_⟩
  · rw [hro', hro, if_pos hra]
    exact Ne.symm hab
  · obtain rfl := mentions_var.mp hx
    rw [tags_of_unbound (by rw [hro', hrb']) (by rw [hco', if_pos hrb']), tags_of_unbound hrb hcb,
      tags_of_unbound hra hca]
    simp only [Option.bind_some, Option.map_some, Tag.sunk, isVar, if_true, Nat.min_comm]
  · have hxb : x ≠ b := fun h => hx (h ▸ .var)
    by_cases hr : s.root x = x
    · have hrx : (s.link a b).root x = x := by rw [hro, hr, if_neg hxa]
      refine tags_congr (by rw [hro', hrx, hr]) ?_
      rw [hco', hrx, if_neg hxb, hco, hr, if_neg hxa]
    · rw [tags_of_root_ne hr, tags_of_root_ne]
      rw [hro', hro]
      split
      · exact Ne.symm hxb
      · exact hr

theorem joined_view (hf : s.Forest) (ha : a < s.size) (hb : b < s.size) (hra : s.root a = a)
    (hrb : s.root b = b) (hka : s.kind a ≠ .free) (hkb : s.kind b ≠ .free) (x : Var) :
    (if a = b then s else s.link a b).tags x = s.tags x ∧
      ((if a = b then s else s.link a b).kind x = .free →
        s.kind x = .free ∧ (if a = b then s else s.link a b).root x = s.root x) := by
  split
  · exact ⟨rfl, fun h => ⟨h, rfl⟩⟩
  · rename_i hab
    obtain ⟨_, hro, hco⟩ := link_view hf ha hb hra hrb hab
    have hkind := link_kind hf ha hb hra hrb hab x
    by_cases hx : s.root x = a
    · rw [if_pos hx] at hkind
      have hxk : s.kind x ≠ .free := by rw [← kind_root hf, hx]; exact hka
      rw [tags_of_not_free hxk, tags_of_not_free (by rw [hkind]; exact hkb)]
      exact ⟨rfl, fun h => absurd (hkind.symm.trans h) hkb⟩
    · rw [if_neg hx] at hkind
      have hroot : (s.link a b).root x = s.root x := by rw [hro, if_neg hx]
      refine ⟨tags_congr hroot (by rw [hco, if_neg hx]), fun h => ⟨?_, hroot⟩⟩
      rw [← hkind]
      exact h

/-! ### Derivations that go on -/

/-- Pairs with the property `P`, put before others, are worked off on the way from `s` to `s'`. -/
def Traced (P : Pairs → Prop) (s : Store) (θ : Valuation) (s' : Store) : Prop :=
  ∃ θ', s'.Reading θ' ∧ s.SolvedBy θ' ∧ ∀ ms, P ms → ∀ ws i θ'', s.LivePairs ws →
    Unifies s'.tags θ' (ws.subst θ') i θ'' → Unifies s.tags θ (ms ++ ws) i θ''

theorem Traced.imp {Q : Pairs → Prop} (h : Traced P s θ s') (hQ : ∀ ms, Q ms → P ms) :
    Traced Q s θ s' := by
  obtain ⟨θ', hθ', hs, h⟩ := h
  exact ⟨θ', hθ', hs, fun ms hms => h ms (hQ ms hms)⟩

theorem traced_of_binds (hθ : s.Reading θ) (hn : ¬ m.Mentions a) (hb : s.tags.Binds a m s'.tags)
    (hsolves : s.SolvedBy fun v => (θ v).subst (single a m))
    (hsolved : s'.SolvedBy fun v => (θ v).subst (single a m))
    (hfree : ∀ v, s'.kind v = .free → (θ v).subst (single a m) = .var (s'.root v)) :
    Traced (fun ms => ms = [(.var a, m)] ∨ m.isVar = false ∧ ms = [(m, .var a)]) s θ s' := by
  refine ⟨_, ⟨hsolved, hfree⟩, hsolves, fun ms hms ws i θ'' hws h => ?_⟩
  have hcongr : ∀ u : Meaning, s.Live u →
      (u.subst fun v => (θ v).subst (single a m)) = u.subst (single a m) := by
    refine fun u hu => hu.plain.subst_congr fun r hr => ?_
    rw [hθ.free r (hu.within r hr).1, (hu.within r hr).2, Meaning.subst]
  have heq : ws.subst (fun v => (θ v).subst (single a m)) = ws.subst (single a m) := by
    refine List.map_congr_left fun w hw => ?_
    rw [hcongr w.1 (hws w hw).1, hcongr w.2 (hws w hw).2]
  rw [heq] at h
  rcases hms with rfl | ⟨hv, rfl⟩
  · exact .left hn hb h
  · exact .right hv hn hb h

/-- An unbound class takes a type that is no variable. -/
theorem traced_of_adopt (hs : s.FirstOrder) (hθ : s.Reading θ) (ht : t.Fits s.size)
    (hft : t.FirstOrder s.aliases) (hnv : t.isVar = false) (hm : Denotes s.aliases θ t m)
    (hocc : a ∉ s.reach t) (hra : s.root a = a) (hca : s.content a = .unbound rank hint)
    (hgone : s'.tags a = none)
    (hkept : ∀ x, x ≠ a → s'.tags x = (s.lowerRanks (s.reach t) rank).tags x)
    (hsolved : ∀ σ, s.SolvedBy σ → Denotes s.aliases σ t (σ a) → s'.SolvedBy σ)
    (hfree : ∀ v, s'.kind v = .free → s.kind v = .free ∧ s.root v ≠ a ∧ s'.root v = s.root v) :
    Traced (fun ms => ms = [(θ a, m)] ∨ ms = [(m, θ a)]) s θ s' := by
  have hn : ¬ m.Mentions a := fun h => by
    obtain ⟨_, _, w, hw, hr⟩ := hθ.exists_of_mentions hs.toIntact ht hm h
    exact hocc ((mem_reach hs.toFormed ht).mpr ⟨w, hw, hr⟩)
  have hplain := hs.plain hθ ht hft hm
  have hθa : θ a = .var a := by rw [hθ.free a (kind_eq_free.mpr ⟨_, _, hca⟩), hra]
  have hsolves : s.SolvedBy fun v => (θ v).subst (single a m) :=
    hθ.solvedBy_subst hs.toFormed hs.usable fun x => (hplain.single x).tidy
  have hden := hsolves.denotes_subst hθ hs.grounded hs.toFormed hs.usable ht hm
  have hvar : m.isVar = false := by
    cases hmv : m with
    | var r => exact absurd hmv (hft.ne_var hnv hm r)
    | _ => rfl
  refine (traced_of_binds hθ hn (binds_of_adopt hs hθ ht hft hnv hm hn hra hca hgone hkept) hsolves
    (hsolved _ hsolves ?_) fun v hv => ?_).imp ?_
  · have hself : m.subst (fun v => (θ v).subst (single a m)) = m := by
      refine hplain.subst_eq_self fun r hr => ?_
      obtain ⟨hk, hroot, _⟩ := hθ.exists_of_mentions hs.toIntact ht hm hr
      rw [hθ.free r hk, hroot, Meaning.subst, single_of_ne fun h : r = a => hn (h ▸ hr)]
    rw [hself] at hden
    rw [hθa, Meaning.subst, single_self]
    exact hden
  · obtain ⟨hk, hne, hroot⟩ := hfree v hv
    rw [hθ.free v hk, Meaning.subst, single_of_ne hne, hroot]
  · rintro ms (rfl | rfl)
    · exact .inl (by rw [hθa])
    · exact .inr ⟨hvar, by rw [hθa]⟩

/-- An unbound class goes under one that stands for a type. -/
theorem linked_traced (hs : s.FirstOrder) (hθ : s.Reading θ) (ha : a < s.size) (hb : b < s.size)
    (hra : s.root a = a) (hrb : s.root b = b) (hab : a ≠ b) (hca : s.content a = .unbound rank hint)
    (hk : s.kind b = .bound t) (hocc : a ∉ s.reach t) :
    Traced (fun ms => ms = [(θ a, θ b)] ∨ ms = [(θ b, θ a)]) s θ
      ((s.lowerRanks (s.reach t) rank).link a b) := by
  obtain ⟨hf, hal⟩ := lowerRanks_reach hs.toFormed t rank
  have hfaith := adopted_faithful trivial hs rank ha hb hra hrb hab hk hocc
  obtain ⟨hft, hnv⟩ := hs.terms b t hk
  obtain ⟨_, hro, hco⟩ := link_view hf (by rw [hal.size]; exact ha) (by rw [hal.size]; exact hb)
    (by rw [hal.root]; exact hra) (by rw [hal.root]; exact hrb) hab
  refine traced_of_adopt hs hθ (hs.fits b t hk) hft hnv (hθ.bound b t hk) hocc hra hca ?_
    (fun x hx => ?_) (fun σ hσ hden => ?_) fun v hv => ?_
  · refine tags_of_root_ne ?_
    rw [hro, hal.root, if_pos hra]
    exact Ne.symm hab
  · by_cases hr : s.root x = a
    · have hxb : b ≠ x := fun h => hab (hr.symm.trans (h ▸ hrb))
      rw [tags_of_root_ne (by rw [hro, hal.root, if_pos hr]; exact hxb),
        tags_of_root_ne (by rw [hal.root, hr]; exact Ne.symm hx)]
    · exact tags_congr (by rw [hro, hal.root, if_neg hr]) (by rw [hco, hal.root, if_neg hr])
  · obtain ⟨_, heq, hsolved⟩ := hfaith.complete σ hσ (hden.unique (hσ.bound b t hk))
    cases heq
    exact hsolved
  · have hkind : ((s.lowerRanks (s.reach t) rank).link a b).kind v =
        if s.root v = a then s.kind b else s.kind v := by
      rw [link_kind hf (by rw [hal.size]; exact ha) (by rw [hal.size]; exact hb)
        (by rw [hal.root]; exact hra) (by rw [hal.root]; exact hrb) hab, hal.root, hal.kind, hal.kind]
    rw [hkind] at hv
    split at hv
    · rw [hk] at hv; cases hv
    · rename_i hne
      exact ⟨hv, hne, by rw [hro, hal.root, if_neg hne]⟩

theorem bound_traced (hs : s.FirstOrder) (hθ : s.Reading θ) (ha : a < s.size) (hra : s.root a = a)
    (hca : s.content a = .unbound rank hint) (ht : t.Fits s.size) (hft : t.FirstOrder s.aliases)
    (hnv : t.isVar = false) (hm : Denotes s.aliases θ t m) (hocc : a ∉ s.reach t) :
    Traced (fun ms => ms = [(θ a, m)] ∨ ms = [(m, θ a)]) s θ
      ((s.lowerRanks (s.reach t) rank).put a (.bound t)) := by
  obtain ⟨hf, hal⟩ := lowerRanks_reach hs.toFormed t rank
  have hk : s.kind a = .free := kind_eq_free.mpr ⟨_, _, hca⟩
  have ha' : a < (s.lowerRanks (s.reach t) rank).size := by rw [hal.size]; exact ha
  have hra' : (s.lowerRanks (s.reach t) rank).root a = a := by rw [hal.root]; exact hra
  obtain ⟨_, hro, hco⟩ := put_view hf ha' hra' (.bound t)
  refine traced_of_adopt hs hθ ht hft hnv hm hocc hra hca (tags_of_bound (by rw [hco, if_pos hra']))
    (fun x hx => ?_) (fun σ hσ hden => ?_) fun v hv => ?_
  · by_cases hr : s.root x = a
    · rw [tags_of_root_ne (by rw [hro, hal.root, hr]; exact Ne.symm hx),
        tags_of_root_ne (by rw [hal.root, hr]; exact Ne.symm hx)]
    · exact tags_congr (hro x) (by rw [hco, hal.root, if_neg hr])
  · refine (put_solvedBy hf ha' hra' (by rw [hal.kind]; exact hk)).mpr ⟨hal.solvedBy.mpr hσ, ?_⟩
    rw [hal.aliases]
    exact hden
  · rw [kind, hco, hal.root] at hv
    split at hv
    · cases hv
    · rename_i hne
      exact ⟨by rw [← hal.kind]; exact hv, hne, by rw [hro, hal.root]⟩

theorem Alike.reading (hal : Alike s s1) (hθ : s.Reading θ) : s1.Reading θ :=
  ⟨hal.solvedBy.mpr hθ.toSolvedBy, fun v hk => by
    rw [hal.root]; exact hθ.free v ((hal.kind v).symm.trans hk)⟩

theorem Traced.of_alike (hal : Alike s s1) (hcon : ∀ v, s1.content v = s.content v)
    (h : Traced P s1 θ s') : Traced P s θ s' := by
  obtain ⟨θ', hθ', hsolves, h⟩ := h
  have htags : s1.tags = s.tags := funext fun x => tags_congr (hal.root x) (hcon x)
  refine ⟨θ', hθ', hal.solvedBy.mp hsolves, fun ms hms ws i θ'' hws hu => ?_⟩
  rw [← htags]
  refine h ms hms ws i θ'' (fun w hw => ?_) hu
  have hlive : ∀ m, s.Live m → s1.Live m := fun m hm =>
    ⟨hm.plain, fun r hr => ⟨(hal.kind r).trans (hm.within r hr).1,
      (hal.root r).trans (hm.within r hr).2⟩⟩
  exact ⟨hlive _ (hws w hw).1, hlive _ (hws w hw).2⟩

theorem adopted_traced (hs : s.FirstOrder) (hθ : s.Reading θ) (ha : a < s.size) (hb : b < s.size)
    (hra : s.root a = a) (hrb : s.root b = b) (hab : a ≠ b) (hca : s.content a = .unbound rank hint)
    (hk : s.kind b = .bound t) {k : Nat}
    (hadopt : s.adopt k a rank t (fun s => s.link a b) = .unified s') :
    Traced (fun ms => ms = [(θ a, θ b)] ∨ ms = [(θ b, θ a)]) s θ s' := by
  have hl := hs.forest.linksEnd
  rcases adopt_spec hl hadopt nofun with ⟨_, m, _, heq, _⟩ | ⟨hocc, s1, heq, h1⟩
  · cases heq
  cases heq
  have hal := h1.alike hl
  rw [← h1.content hl] at hca
  refine Traced.of_alike hal (h1.content hl) (linked_traced (hs.alike (h1.forest hs.forest) hal)
    (hal.reading hθ) ?_ ?_ ?_ ?_ hab hca ?_ ?_)
  · rw [hal.size]; exact ha
  · rw [hal.size]; exact hb
  · rw [hal.root]; exact hra
  · rw [hal.root]; exact hrb
  · rw [hal.kind]; exact hk
  · rw [h1.reach hl]; exact hocc

/-- The trees of the types of a pair. -/
def Sides (table : AliasTable) (θ : Valuation) (q : Ty × Ty) (w : Meaning × Meaning) : Prop :=
  Denotes table θ q.1 w.1 ∧ Denotes table θ q.2 w.2

/-- The pair of trees that a call makes equal. -/
def Call.Sides (table : AliasTable) (θ : Valuation) : Call → Pairs → Prop
  | .types l r, ms => ∃ w, ms = [w] ∧ Store.Sides table θ (l, r) w
  | .vars v w, ms => ms = [(θ v, θ w)]
  | .var .left v t, ms => ∃ m, ms = [(θ v, m)] ∧ Denotes table θ t m
  | .var .right v t, ms => ∃ m, ms = [(m, θ v)] ∧ Denotes table θ t m
  | .terms l r, ms => ∃ w, ms = [w] ∧ Store.Sides table θ (l, r) w
  | .rows _ _ _ _, _ => False
  | .tails _ _ _ _ _, _ => False

theorem sides_zip {table : AliasTable} {as bs : List Ty} {xs ys : List Meaning}
    (hxs : List.Forall₂ (Denotes table θ) as xs) (hys : List.Forall₂ (Denotes table θ) bs ys) :
    List.Forall₂ (Sides table θ) (as.zip bs) (xs.zip ys) := by
  induction hxs generalizing bs ys with
  | nil => exact .nil
  | cons hx _ ih =>
    cases hys with
    | nil => exact .nil
    | cons hy hys => exact .cons ⟨hx, hy⟩ (ih hys)

section Runs

variable {n : Nat}
  (ih : ∀ {c s s' θ}, Runs .any n c s (.unified s') → s.FirstOrder → c.FirstOrder s.aliases →
    c.Fits s.size → s.Reading θ → Traced (c.Sides s.aliases θ) s θ s')

include ih

theorem each_traced {ps : List (Ty × Ty)} (h : Each (Runs .any n) ps s (.unified s'))
    (hs : s.FirstOrder) (hps : ∀ q ∈ ps,
      (Call.types q.1 q.2).FirstOrder s.aliases ∧ (Call.types q.1 q.2).Fits s.size)
    (hθ : s.Reading θ) :
    Traced (fun ms => List.Forall₂ (Sides s.aliases θ) ps ms) s θ s' := by
  generalize ho : Outcome.unified s' = o at h
  induction h generalizing θ with
  | @nil s =>
    cases ho
    refine ⟨θ, hθ, hθ.toSolvedBy, fun ms hms ws i θ'' hws h => ?_⟩
    cases hms
    rw [hws.subst_eq hθ] at h
    exact h
  | @cons l r ps s s1 o h _ ihps =>
    subst ho
    obtain ⟨hc, hfit⟩ := hps (l, r) (by simp)
    have hfaith := h.faithful hs hc hfit
    obtain ⟨hs1, hsize, hal⟩ := hfaith.keeps s1 rfl
    obtain ⟨θ1, hθ1, hθ1s, hfirst⟩ := ih h hs hc hfit hθ
    obtain ⟨θ', hθ', hθ's, hrest⟩ := ihps hs1 (fun q hq => by
      rw [hal, hsize]; exact hps q (by simp [hq])) hθ1 rfl
    refine ⟨θ', hθ',
      ((h.strict hs hc hfit).sound hs.toIntact hfit s1 rfl hs.toIntact θ' hθ's).1,
      fun ms hms ws i θ'' hws h => ?_⟩
    cases hms with | @cons _ w _ ms hw hms => ?_
    have hlive : s.LivePairs ms := by
      intro u hu
      obtain ⟨q, hq, hl, hr⟩ := exists_of_forall₂_right hms hu
      obtain ⟨⟨hcl, hcr⟩, hfl, hfr⟩ := hps q (by simp [hq])
      exact ⟨hs.live hθ hfl hcl hl, hs.live hθ hfr hcr hr⟩
    refine hfirst [w] ⟨w, rfl, hw⟩ (ms ++ ws) i θ'' (List.forall_mem_append.mpr ⟨hlive, hws⟩) ?_
    rw [Pairs.subst_append]
    refine hrest (Pairs.subst θ1 ms) ?_ (ws.subst θ1) i θ'' ?_ ?_
    · show List.Forall₂ _ _ (List.map _ _)
      rw [List.forall₂_map_right_iff, hal]
      refine forall₂_of_mem (P := fun q => (Call.types q.1 q.2).Fits s.size)
        (hms.imp fun q u hu hfits => ?_) fun q hq => (hps q (by simp [hq])).2
      exact ⟨hθ1s.denotes_subst hθ hs.grounded hs.toFormed hs.usable hfits.1 hu.1,
        hθ1s.denotes_subst hθ hs.grounded hs.toFormed hs.usable hfits.2 hu.2⟩
    · intro u hu
      obtain ⟨w, hw, rfl⟩ := List.mem_map.mp hu
      exact ⟨(hws w hw).1.subst hs1 hθ1 (by rw [hsize]), (hws w hw).2.subst hs1 hθ1 (by rw [hsize])⟩
    · have heq : (ws.subst θ1).subst θ' = ws.subst θ' := by
        rw [Pairs.subst, Pairs.subst, List.map_map]
        refine List.map_congr_left fun w hw => ?_
        exact Prod.ext ((hws w hw).1.subst_subst hs1 hθ1 hθ's (by rw [hsize]))
          ((hws w hw).2.subst_subst hs1 hθ1 hθ's (by rw [hsize]))
      rw [heq]
      exact h
  | failed => cases ho

theorem heads_traced {l r : Ty} (h : HeadsRule (Runs .any n) l r s (.unified s'))
    (hs : s.FirstOrder) (hc : (Call.terms l r).FirstOrder s.aliases)
    (hfit : (Call.terms l r).Fits s.size) (hθ : s.Reading θ) :
    Traced ((Call.terms l r).Sides s.aliases θ) s θ s' := by
  obtain ⟨⟨hl, hnl⟩, hr, hnr⟩ := hc
  generalize ho : Outcome.unified s' = o at h
  cases h with
  | var hvar => rcases hvar with h | h <;> simp_all
  | func h =>
    subst ho
    obtain ⟨θ', hθ', hsolves, hstep⟩ := each_traced ih h hs (firstOrder_func hl hr hfit) hθ
    refine ⟨θ', hθ', hsolves, ?_⟩
    rintro _ ⟨⟨ml, mr⟩, rfl, hml, hmr⟩ ws i θ'' hws h
    obtain ⟨x, y, rfl, hx, hy⟩ := Denotes.func_iff.mp hml
    obtain ⟨z, w, rfl, hz, hw⟩ := Denotes.func_iff.mp hmr
    exact .func (hstep [(x, z), (y, w)] (.cons ⟨hx, hz⟩ (.cons ⟨hy, hw⟩ .nil)) ws i θ'' hws h)
  | @app f as bs _ _ hlen h =>
    subst ho
    obtain ⟨θ', hθ', hsolves, hstep⟩ := each_traced ih h hs (firstOrder_app hl hr hfit) hθ
    refine ⟨θ', hθ', hsolves, ?_⟩
    rintro _ ⟨⟨ml, mr⟩, rfl, hml, hmr⟩ ws i θ'' hws h
    obtain ⟨xs, rfl, hxs⟩ := (Denotes.app_iff hl.expand_ne).mp hml
    obtain ⟨ys, rfl, hys⟩ := (Denotes.app_iff hr.expand_ne).mp hmr
    refine .app (by rw [← hxs.length_eq, ← hys.length_eq, hlen]) ?_
    exact hstep (xs.zip ys) (sides_zip hxs hys) ws i θ'' hws h
  | record => cases hl
  | clash hclash h ho' =>
    obtain ⟨m, _, rfl, _⟩ := failWith_spec hs.forest.linksEnd h ho'
    cases ho

theorem roots_traced (h : RootsRule .any (Runs .any n) a b s (.unified s')) (hs : s.FirstOrder)
    (ha : a < s.size) (hb : b < s.size) (hra : s.root a = a) (hrb : s.root b = b)
    (hθ : s.Reading θ) : Traced (fun ms => ms = [(θ a, θ b)]) s θ s' := by
  have hfaith := roots_faithful (fun h => h.faithful) h hs ha hb hra hrb
  generalize ho : Outcome.unified s' = o at h hfaith
  cases h with
  | same hab =>
    cases ho
    subst hab
    refine ⟨θ, hθ, hθ.toSolvedBy, ?_⟩
    rintro _ rfl ws i θ'' hws h
    rw [hws.subst_eq hθ] at h
    exact .skip (hs.plain_reading hθ ha) h
  | poisonedLeft _ hc => exact absurd (kind_eq_poisoned.mpr hc) (hs.healthy a ha)
  | poisonedRight _ _ hc => exact absurd (kind_eq_poisoned.mpr hc) (hs.healthy b hb)
  | @merge rankA rankB hintA hintB hab hca hcb =>
    cases ho
    have hka : s.kind a = .free := kind_eq_free.mpr ⟨_, _, hca⟩
    have hkb : s.kind b = .free := kind_eq_free.mpr ⟨_, _, hcb⟩
    have hθa : θ a = .var a := by rw [hθ.free a hka, hra]
    have hθb : θ b = .var b := by rw [hθ.free b hkb, hrb]
    have hsolves : s.SolvedBy fun v => (θ v).subst (single a (.var b)) :=
      hθ.solvedBy_subst hs.toFormed hs.usable fun x => ((Plain.var b).single x).tidy
    obtain ⟨_, heq, hsolved⟩ := hfaith.complete _ hsolves (by
      simp only [hθa, hθb, Meaning.subst, single_self, single_of_ne (Ne.symm hab)])
    cases heq
    obtain ⟨hf, hal⟩ := merge_alike hs.forest ha hb hra hrb hab hkb (min rankA rankB)
      (hintB <|> hintA)
    obtain ⟨_, hro, _⟩ := link_view hs.forest ha hb hra hrb hab
    refine (traced_of_binds hθ (fun h => hab (mentions_var.mp h).symm)
      (binds_of_merge hs ha hb hra hrb hab hca hcb) hsolves hsolved fun v hv => ?_).imp ?_
    · rw [hal.kind, link_kind hs.forest ha hb hra hrb hab] at hv
      rw [hal.root, hro]
      split at hv <;> rename_i hv'
      · have hkv : s.kind v = .free := by rw [← kind_root hs.forest, hv', hka]
        rw [hθ.free v hkv, hv', if_pos rfl, Meaning.subst, single_self]
      · rw [hθ.free v hv, if_neg hv', Meaning.subst, single_of_ne hv']
    · rintro _ rfl
      exact .inl (by rw [hθa, hθb])
  | adoptLeft hab hca hcb hadopt =>
    subst ho
    exact (adopted_traced hs hθ ha hb hra hrb hab hca (kind_eq_bound.mpr hcb) hadopt).imp
      fun _ => .inl
  | adoptRight hab hca hcb hadopt =>
    subst ho
    exact (adopted_traced hs hθ hb ha hrb hra (Ne.symm hab) hcb (kind_eq_bound.mpr hca) hadopt).imp
      fun _ => .inr
  | @join l r s1 s2 s3 a' b' hab hca hcb h hfa hfb _ =>
    cases ho
    have hka : s.kind a = .bound l := kind_eq_bound.mpr hca
    have hkb : s.kind b = .bound r := kind_eq_bound.mpr hcb
    have hc : (Call.terms l r).FirstOrder s.aliases := ⟨hs.terms a l hka, hs.terms b r hkb⟩
    have hfits : (Call.terms l r).Fits s.size := ⟨hs.fits a l hka, hs.fits b r hkb⟩
    have hterms := h.faithful hs hc hfits
    obtain ⟨hs1, hsize, hals⟩ := hterms.keeps s1 rfl
    obtain ⟨θ1, hθ1, hsolves, hstep⟩ := ih h hs hc hfits hθ
    obtain ⟨_, m, hl, hr⟩ := (h.strict hs hc hfits).sound hs.toIntact hfits s1 rfl hs.toIntact θ1
      hθ1.toSolvedBy
    have hθa : θ1 a = m := (hsolves.bound a l hka).unique hl
    have hθb : θ1 b = m := (hsolves.bound b r hkb).unique hr
    have hnot : ∀ x, θ1 x = m → s1.kind x ≠ .free := fun x hx hk =>
      hc.1.1.ne_var hc.1.2 hl _ (hx ▸ hθ1.free x hk)
    obtain ⟨_, heq, hsolved⟩ := hfaith.complete θ1 hsolves (hθa.trans hθb.symm)
    cases heq
    rw [← hsize] at ha hb
    obtain ⟨rfl, rfl, hf, hal, hcon, ⟨ha', hb'⟩, hra', hrb'⟩ := find_both hs1.forest ha hb hfa hfb
    have hview := joined_view hf ha' hb' hra' hrb'
      (by rw [hal.kind]; exact hnot _ (by rw [hθ1.root, hθa]))
      (by rw [hal.kind]; exact hnot _ (by rw [hθ1.root, hθb]))
    have htags : (if s1.root a = s1.root b then s3 else s3.link (s1.root a) (s1.root b)).tags =
        s1.tags := by
      funext x
      rw [(hview x).1, tags_congr (hal.root x) (hcon x)]
    refine ⟨θ1, ⟨hsolved, fun v hv => ?_⟩, hsolves, ?_⟩
    · obtain ⟨hk, hroot⟩ := (hview v).2 hv
      rw [hθ1.free v (by rw [← hal.kind]; exact hk), hroot, hal.root]
    · rintro _ rfl ws i θ'' hws h
      rw [htags] at h
      exact hstep _ ⟨_, rfl, hθ.bound a l hka, hθ.bound b r hkb⟩ ws i θ'' hws h
  | joinFailed => cases ho

theorem rule_traced {c : Call} (h : Rule .any (Runs .any n) c s (.unified s')) (hs : s.FirstOrder)
    (hc : c.FirstOrder s.aliases) (hfit : c.Fits s.size) (hθ : s.Reading θ) :
    Traced (c.Sides s.aliases θ) s θ s' := by
  generalize ho : Outcome.unified s' = o at h
  cases h with
  | varVar h =>
    subst ho
    refine (ih h hs trivial ⟨hfit.1.lt (by simp), hfit.2.lt (by simp)⟩ hθ).imp ?_
    rintro _ ⟨⟨ml, mr⟩, rfl, hl, hr⟩
    cases hl
    cases hr
    rfl
  | varLeft hnv h =>
    subst ho
    refine (ih h hs ⟨hc.2, hnv⟩ ⟨hfit.1.lt (by simp), hfit.2⟩ hθ).imp ?_
    rintro _ ⟨⟨ml, mr⟩, rfl, hl, hr⟩
    cases hl
    exact ⟨mr, rfl, hr⟩
  | varRight hnv h =>
    subst ho
    refine (ih h hs ⟨hc.1, hnv⟩ ⟨hfit.2.lt (by simp), hfit.1⟩ hθ).imp ?_
    rintro _ ⟨⟨ml, mr⟩, rfl, hl, hr⟩
    cases hr
    exact ⟨ml, rfl, hl⟩
  | noVar hl hr h =>
    subst ho
    exact (ih h hs ⟨⟨hc.1, hl⟩, hc.2, hr⟩ hfit hθ).imp fun _ h => h
  | @vars v w a b s s1 s2 o hv hw h =>
    subst ho
    obtain ⟨hvs, hws⟩ := hfit
    obtain ⟨rfl, rfl, hf, hal, hcon, ⟨ha, hb⟩, hra, hrb⟩ := find_both hs.forest hvs hws hv hw
    refine (Traced.of_alike hal hcon (roots_traced ih h (hs.alike hf hal) ha hb hra hrb
      (hal.reading hθ))).imp ?_
    rintro _ rfl
    rw [hθ.root, hθ.root]
  | @poisoned side v a t s s1 hv hcon =>
    obtain ⟨rfl, _, hal, hcont⟩ := find_spec hs.forest hfit.1 hv
    rw [hcont, hs.forest.content_root] at hcon
    exact absurd (kind_eq_poisoned.mpr hcon) (hs.healthy v hfit.1)
  | @bind side v a t k rank hint s s1 o hv hcon h ho' =>
    obtain ⟨rfl, hf, hal1, hcon1⟩ := find_spec hs.forest hfit.1 hv
    rcases adopt_spec hf.linksEnd h ho' with ⟨_, m, _, rfl, _⟩ | ⟨hocc, s2, rfl, h2⟩
    · cases ho
    · cases ho
      have hal := hal1.trans (h2.alike hf.linksEnd)
      have hcon2 : ∀ w, s2.content w = s.content w := fun w => by
        rw [h2.content hf.linksEnd, hcon1]
      have hs2 := hs.alike (h2.forest hf) hal
      have ht : t.Fits s2.size := by rw [hal.size]; exact hfit.2
      have hft : t.FirstOrder s2.aliases := by rw [hal.aliases]; exact hc.1
      obtain ⟨m, hm⟩ := hs2.usable.exists_denotes θ t
      refine (Traced.of_alike hal hcon2 (bound_traced hs2 (hal.reading hθ)
        (by rw [hal.size]; exact hs.forest.root_lt hfit.1)
        (by rw [hal.root]; exact hs.forest.root_root v)
        (by rw [h2.content hf.linksEnd]; exact hcon) ht hft hc.2 hm
        (by rw [h2.reach hf.linksEnd]; exact hocc))).imp ?_
      rw [hθ.root]
      cases side with
      | left =>
        rintro _ ⟨m', rfl, hm'⟩
        rw [← hal.aliases] at hm'
        exact .inl (by rw [hm'.unique hm])
      | right =>
        rintro _ ⟨m', rfl, hm'⟩
        rw [← hal.aliases] at hm'
        exact .inr (by rw [hm'.unique hm])
  | @bound side v a t u s s1 o hv hcon h =>
    obtain ⟨rfl, hf, hal, hcon1⟩ := find_spec hs.forest hfit.1 hv
    have hs1 := hs.alike hf hal
    have hku : s1.kind (s.root v) = .bound u := kind_eq_bound.mpr hcon
    have ht : t.Fits s1.size := by rw [hal.size]; exact hfit.2
    have hft : t.FirstOrder s1.aliases ∧ t.isVar = false := by rw [hal.aliases]; exact hc
    cases o with
    | failed => cases ho
    | outOfFuel => cases ho
    | unified s2 =>
      cases ho
      have hu : Denotes s.aliases θ u (θ v) := by
        have hu := (hal.reading hθ).bound _ u hku
        rwa [hθ.root, hal.aliases] at hu
      refine (Traced.of_alike hal hcon1 (ih h hs1
        (by cases side <;> first | exact ⟨hs1.terms _ u hku, hft⟩ | exact ⟨hft, hs1.terms _ u hku⟩)
        (by cases side <;> first | exact ⟨hs1.fits _ u hku, ht⟩ | exact ⟨ht, hs1.fits _ u hku⟩)
        (hal.reading hθ))).imp ?_
      rw [hal.aliases]
      cases side with
      | left =>
        rintro _ ⟨m, rfl, hm⟩
        exact ⟨_, rfl, hu, hm⟩
      | right =>
        rintro _ ⟨m, rfl, hm⟩
        exact ⟨_, rfl, hm, hu⟩
  | stuckLeft hl => have heq := hc.1.1.eq_of_head hl; cases heq
  | stuckRight _ hr => have heq := hc.2.1.eq_of_head hr; cases heq
  | settled hl hr h =>
    subst ho
    have hl' := hc.1.1.eq_of_head hl
    have hr' := hc.2.1.eq_of_head hr
    cases hl'
    cases hr'
    exact heads_traced ih h hs hc hfit hθ
  | rows => exact hc.elim
  | rowsFailed => exact hc.elim
  | tails => exact hc.elim
  | tailsFailed => exact hc.elim

omit ih in
theorem Runs.traced {c : Call} (h : Runs .any n c s (.unified s')) (hs : s.FirstOrder)
    (hc : c.FirstOrder s.aliases) (hfit : c.Fits s.size) (hθ : s.Reading θ) :
    Traced (c.Sides s.aliases θ) s θ s' := by
  induction n generalizing c s s' θ with
  | zero => cases h
  | succ n ih => exact rule_traced (fun h => ih h) h hs hc hfit hθ

omit ih in
theorem Runs.unifies {l r : Ty} (h : Runs .any n (.types l r) s (.unified s')) (hs : s.FirstOrder)
    (hc : (Call.types l r).FirstOrder s.aliases) (hfit : (Call.types l r).Fits s.size)
    (hθ : s.Reading θ) {ml mr : Meaning} (hl : Denotes s.aliases θ l ml)
    (hr : Denotes s.aliases θ r mr) :
    ∃ θ', s'.Reading θ' ∧ Unifies s.tags θ [(ml, mr)] s'.tags θ' := by
  obtain ⟨θ', hθ', _, h⟩ := h.traced hs hc hfit hθ
  refine ⟨θ', hθ', ?_⟩
  exact h [(ml, mr)] ⟨_, rfl, hl, hr⟩ [] s'.tags θ' (by simp [LivePairs]) .done

end Runs

end Store
end TypeSolver
