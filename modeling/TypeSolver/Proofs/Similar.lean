import TypeSolver.Proofs.Runs

/-!
# TypeSolver.Proofs.Similar

Types that differ in their aliases only. `Similar table back t u` says that expanding aliases in
`t`, and putting aliases back if `back`, gives `u`; no alias here stands for a variable. Heads of
similar types settle to the same form with similar parts (`Similar.head`).

Two stores are similar when their classes are the same and bound classes stand for similar types;
ranks may differ. They show the same snapshots (`Similar.snapshot`).
-/

namespace TypeSolver

namespace Ty

/-- `u` is `t` with every alias expanded, at the head and in all parts, where `P` holds of each
expansion. -/
inductive Unfolds (table : AliasTable) (P : Ty → Prop) : Ty → Ty → Prop where
  | var (v : Var) : Unfolds table P (.var v) (.var v)
  | func {a b a' b' : Ty} : Unfolds table P a a' → Unfolds table P b b' →
      Unfolds table P (.func a b) (.func a' b')
  | app {name : String} {args args' : List Ty} : table.expand name args = none →
      args.length = args'.length → (∀ a a', (a, a') ∈ args.zip args' → Unfolds table P a a') →
      Unfolds table P (.app name args) (.app name args')
  | record {fields fields' : List (String × Ty)} {ext : Option Var} :
      Assoc.keys fields = Assoc.keys fields' →
      (∀ k t t', ((k, t), (k, t')) ∈ fields.zip fields' → Unfolds table P t t') →
      Unfolds table P (.record fields ext) (.record fields' ext)
  | expanded {name : String} {args : List Ty} {t u : Ty} : table.expand name args = some (.ok t) →
      P t → Unfolds table P t u → Unfolds table P (.app name args) u

/-- Expanding aliases in `t`, and putting aliases back if `back`, gives `u`. -/
inductive Similar (table : AliasTable) (back : Bool) : Ty → Ty → Prop where
  | refl (t : Ty) : Similar table back t t
  | func {a b a' b' : Ty} : Similar table back a a' → Similar table back b b' →
      Similar table back (.func a b) (.func a' b')
  | app {name : String} {args args' : List Ty} : table.expand name args = none →
      args.length = args'.length → (∀ a a', (a, a') ∈ args.zip args' → Similar table back a a') →
      Similar table back (.app name args) (.app name args')
  | record {fields fields' : List (String × Ty)} {ext : Option Var} :
      Assoc.keys fields = Assoc.keys fields' →
      (∀ k t t', ((k, t), (k, t')) ∈ fields.zip fields' → Similar table back t t') →
      Similar table back (.record fields ext) (.record fields' ext)
  | left {name : String} {args : List Ty} {t u : Ty} : table.expand name args = some (.ok t) →
      t.isVar = false → Similar table back t u → Similar table back (.app name args) u
  | right {name : String} {args : List Ty} {t u : Ty} : back = true →
      table.expand name args = some (.ok u) → u.isVar = false → Similar table back t u →
      Similar table back t (.app name args)

/-- Two types of one form, with parts that `R` relates. -/
inductive SameHead (R : Ty → Ty → Prop) : Ty → Ty → Prop where
  | var (v : Var) : SameHead R (.var v) (.var v)
  | func {a b a' b' : Ty} : R a a' → R b b' → SameHead R (.func a b) (.func a' b')
  | app {name : String} {args args' : List Ty} : List.Forall₂ R args args' →
      SameHead R (.app name args) (.app name args')
  | record {fields fields' : List (String × Ty)} {ext : Option Var} :
      Assoc.Related R fields fields' → SameHead R (.record fields ext) (.record fields' ext)

theorem SameHead.refl {R : Ty → Ty → Prop} (hR : ∀ t, R t t) (t : Ty) : SameHead R t t := by
  cases t with
  | var v => exact .var v
  | func a b => exact .func (hR a) (hR b)
  | app name args => exact .app (List.forall₂_same.mpr fun a _ => hR a)
  | record fields ext => exact .record (List.forall₂_same.mpr fun f _ => ⟨rfl, hR f.2⟩)

end Ty

namespace AliasTable

/-- Heads of one form with similar parts, or stuck at the same application. -/
inductive Head.Similar (table : AliasTable) (back : Bool) : Head → Head → Prop where
  | settled {t u : Ty} : t.SameHead (Ty.Similar table back) u →
      Similar table back (.settled t) (.settled u)
  | stuck (t : Ty) : Similar table back (.stuck t) (.stuck t)

variable {table : AliasTable} {name : String} {args : List Ty}

theorem expand_eq_none : table.expand name args = none ↔
      ∀ entry, Assoc.get? table name = some entry → entry.params.length ≠ args.length := by
  rw [expand]
  cases Assoc.get? table name with
  | none => simp
  | some entry => simp

theorem expand_none_congr {args' : List Ty} (hlen : args.length = args'.length)
    (h : table.expand name args = none) : table.expand name args' = none := by
  rw [expand_eq_none] at h ⊢
  rwa [← hlen]

end AliasTable

namespace Ty.Similar

variable {table : AliasTable} {back : Bool} {t u : Ty}

theorem forall₂ {args args' : List Ty} (hlen : args.length = args'.length)
    (h : ∀ a a', (a, a') ∈ args.zip args' → Similar table back a a') :
    List.Forall₂ (Similar table back) args args' := forall₂_of_zip hlen h

theorem symm (h : Similar table back t u) : Similar table true u t := by
  induction h with
  | refl t => exact .refl t
  | func _ _ iha ihb => exact .func iha ihb
  | app hex hlen _ ih =>
    refine .app (AliasTable.expand_none_congr hlen hex) hlen.symm fun a a' hmem => ?_
    rw [← List.zip_swap, List.mem_map] at hmem
    obtain ⟨⟨b, b'⟩, hmem, heq⟩ := hmem
    cases heq
    exact ih _ _ hmem
  | record hkeys _ ih =>
    refine .record hkeys.symm fun k t t' hmem => ?_
    rw [← List.zip_swap, List.mem_map] at hmem
    obtain ⟨⟨b, b'⟩, hmem, heq⟩ := hmem
    cases heq
    exact ih _ _ _ hmem
  | left hex hvar _ ih => exact .right rfl hex hvar ih
  | right _ hex hvar _ ih => exact .left hex hvar ih

theorem isVar_eq (h : Similar table back t u) : t.isVar = u.isVar := by
  induction h with
  | left _ hvar _ ih => rw [← ih, hvar]; rfl
  | right _ _ hvar _ ih => rw [ih, hvar]; rfl
  | _ => rfl

/-- Only the variable itself is similar to a variable. -/
theorem eq_var {v : Var} (h : Similar table back (.var v) u) : u = .var v := by
  have hvar := h.isVar_eq
  cases h with
  | refl => rfl
  | right => cases hvar

variable {V : Var → Prop}

theorem over_right (hu : table.Usable) (h : Similar table false t u) (ht : t.Over V) :
    u.Over V := by
  induction h with
  | refl t => exact ht
  | func _ _ iha ihb =>
    obtain ⟨ha, hb⟩ := over_func.mp ht
    exact over_func.mpr ⟨iha ha, ihb hb⟩
  | app _ hlen _ ih =>
    refine over_app.mpr fun a' ha' => ?_
    obtain ⟨a, ha, haa'⟩ := exists_of_forall₂_right (forall₂_of_zip hlen ih) ha'
    exact haa' (over_app.mp ht a ha)
  | record hkeys _ ih =>
    obtain ⟨hs, hf, hext⟩ := over_record.mp ht
    refine over_record.mpr ⟨by rw [Assoc.Sorted, ← hkeys]; exact hs, fun f' hf' => ?_, hext⟩
    have hrel := Assoc.related_of_zip (R := fun a a' => Ty.Over V a → Ty.Over V a') hkeys ih
    obtain ⟨f, hmem, _, hff'⟩ := exists_of_forall₂_right hrel hf'
    exact hff' (hf f hmem)
  | left hex _ _ ih => exact ih (hu.expand_over hex (over_app.mp ht))
  | right hback => cases hback

theorem mem_vars (hu : table.Usable) (h : Similar table false t u) (ht : t.Over V) {v : Var}
    (hv : v ∈ u.vars) : v ∈ t.vars :=
  (h.over_right hu (ht.restrict fun _ hw => hw)).mem hv

theorem of_unfolds (h : Unfolds table (fun t => t.isVar = false) t u) : Similar table back t u := by
  induction h with
  | var v => exact .refl _
  | func _ _ iha ihb => exact .func iha ihb
  | app hex hlen _ ih => exact .app hex hlen ih
  | record hkeys _ ih => exact .record hkeys ih
  | expanded hex hvar _ ih => exact .left hex hvar ih

theorem head (h : Similar table back t u) {k : Nat} {hd : AliasTable.Head}
    (hk : table.head k t = some hd) :
    ∃ hd', hd.Similar table back hd' ∧ EnoughFuel fun k' => table.head k' u = some hd' := by
  cases k with
  | zero => cases hk
  | succ k =>
    induction h generalizing k hd with
    | refl t =>
      refine ⟨hd, ?_, k + 1, fun k' hle => AliasTable.head_mono hle hk⟩
      cases hd with
      | settled t' => exact .settled (.refl .refl t')
      | stuck t' => exact .stuck t'
    | func ha hb => cases hk; exact ⟨_, .settled (.func ha hb), .of_succ (.intro fun _ => rfl)⟩
    | app hex hlen h =>
      simp only [AliasTable.head, hex, Option.some.injEq] at hk
      subst hk
      refine ⟨_, .settled (.app (forall₂ hlen h)), .of_succ (.intro fun k' => ?_)⟩
      simp only [AliasTable.head, AliasTable.expand_none_congr hlen hex]
    | record hkeys h =>
      cases hk
      exact ⟨_, .settled (.record (Assoc.related_of_zip hkeys h)), .of_succ (.intro fun _ => rfl)⟩
    | left hex _ _ ih =>
      simp only [AliasTable.head, hex] at hk
      cases k with
      | zero => cases hk
      | succ k => exact ih k hk
    | right _ hex _ _ ih =>
      obtain ⟨hd', hsim, hk'⟩ := ih k hk
      exact ⟨hd', hsim, .of_succ (hk'.mono fun k' h => by simp only [AliasTable.head, hex]; exact h)⟩

end Ty.Similar

theorem Ty.SameHead.similar {table : AliasTable} {back : Bool} {t u : Ty}
    (h : t.SameHead (Similar table back) u)
    (ht : ∀ name args, t = .app name args → table.expand name args = none) :
    t.Similar table back u := by
  cases h with
  | var v => exact .refl _
  | func ha hb => exact .func ha hb
  | app hargs =>
    exact .app (ht _ _ rfl) hargs.length_eq fun a a' hmem => (List.forall₂_iff_zip.mp hargs).2 hmem
  | record hrel =>
    exact .record hrel.keys_eq fun k t t' hmem => ((List.forall₂_iff_zip.mp hrel).2 hmem).2

/-- The same but for ranks, and for aliases in what is bound. -/
inductive Content.Similar (table : AliasTable) (back : Bool) : Content → Content → Prop where
  | unbound (rank rank' : Rank) (hint : Option String) :
      Similar table back (.unbound rank hint) (.unbound rank' hint)
  | bound {t u : Ty} : t.Similar table back u → Similar table back (.bound t) (.bound u)
  | poisoned : Similar table back .poisoned .poisoned

namespace Store

structure Similar (back : Bool) (s s' : Store) : Prop where
  forest : s'.Forest
  size : s'.size = s.size
  aliases : s'.aliases = s.aliases
  root : ∀ v, s'.root v = s.root v
  content : ∀ v, (s.content v).Similar s.aliases back (s'.content v)

namespace Similar

variable {back : Bool} {s s' : Store}

theorem refl (h : s.Forest) : Similar back s s := by
  refine ⟨h, rfl, rfl, fun _ => rfl, fun v => ?_⟩
  cases s.content v with
  | unbound rank hint => exact .unbound rank rank hint
  | bound t => exact .bound (.refl t)
  | poisoned => exact .poisoned

theorem symm (hs : Similar back s s') (h : s.Forest) : Similar true s' s := by
  refine ⟨h, hs.size.symm, hs.aliases.symm, fun v => (hs.root v).symm, fun v => ?_⟩
  rw [hs.aliases]
  have hc := hs.content v
  generalize s.content v = c, s'.content v = c' at hc
  cases hc with
  | unbound rank rank' hint => exact .unbound rank' rank hint
  | bound htu => exact .bound htu.symm
  | poisoned => exact .poisoned

variable {a b r v : Var} {t u : Ty} {s1 : Store}

theorem bound (hs : Similar back s s') (hc : s.content v = .bound t) :
    ∃ u, s'.content v = .bound u ∧ t.Similar s.aliases back u := by
  have hsim := hs.content v
  rw [hc] at hsim
  generalize s'.content v = c' at hsim
  cases hsim with
  | bound htu => exact ⟨_, rfl, htu⟩

theorem of_bound (hs : Similar back s s') (hc : s'.content v = .bound u) :
    ∃ t, s.content v = .bound t ∧ t.Similar s.aliases back u := by
  have hsim := hs.content v
  rw [hc] at hsim
  generalize s.content v = c at hsim
  cases hsim with
  | bound htu => exact ⟨_, rfl, htu⟩

theorem unbound (hs : Similar back s s') {rank : Rank} {hint : Option String}
    (hc : s.content v = .unbound rank hint) : ∃ rank', s'.content v = .unbound rank' hint := by
  have hsim := hs.content v
  rw [hc] at hsim
  generalize s'.content v = c' at hsim
  cases hsim
  exact ⟨_, rfl⟩

theorem poisoned_iff (hs : Similar back s s') :
    s'.content v = .poisoned ↔ s.content v = .poisoned := by
  have hc := hs.content v
  generalize s.content v = c, s'.content v = c' at hc
  cases hc <;> simp

theorem isSome_rank? (hs : Similar back s s') (v : Var) :
    (s'.rank? v).isSome = (s.rank? v).isSome := by
  rw [rank?, rank?]
  have hc := hs.content v
  generalize s.content v = c, s'.content v = c' at hc ⊢
  cases hc <;> rfl

theorem wellFormed (hs : Similar false s s') (h : s.WellFormed) : s'.WellFormed := by
  refine ⟨⟨hs.forest, fun v u hk => ?_⟩, by rw [hs.aliases]; exact h.usable⟩
  obtain ⟨t, hc, htu⟩ := hs.of_bound (kind_eq_bound.mp hk)
  rw [hs.size]
  exact htu.over_right h.usable (h.fits v t (kind_eq_bound.mpr hc))

theorem reaches (hs : Similar false s s') (h : s.WellFormed) (hr : s'.Reaches v r) :
    s.Reaches v r := by
  rw [Reaches, hs.root] at hr
  refine Relation.ReflTransGen.mono ?_ _ _ hr
  rintro v r ⟨u, hk, w, hw, hwr⟩
  obtain ⟨t, hc, htu⟩ := hs.of_bound (kind_eq_bound.mp hk)
  have hkt : s.kind v = .bound t := kind_eq_bound.mpr hc
  exact ⟨t, hkt, w, htu.mem_vars h.usable (h.fits v t hkt) hw, by rw [← hs.root, hwr]⟩

theorem mem_reach (hs : Similar false s s') (h : s.WellFormed) (ht : t.Fits s.size)
    (htu : t.Similar s.aliases false u) (hr : r ∈ s'.reach u) : r ∈ s.reach t := by
  have hu : u.Fits s'.size := by rw [hs.size]; exact htu.over_right h.usable ht
  obtain ⟨v, hv, hr⟩ := (Store.mem_reach (hs.wellFormed h).toFormed hu).mp hr
  exact (Store.mem_reach h.toFormed ht).mpr ⟨v, htu.mem_vars h.usable ht hv, hs.reaches h hr⟩

theorem relinked (hs : Similar back s s') (h : s.Forest) {s1' : Store} (h1 : Relinked s s1)
    (h1' : Relinked s' s1') : Similar back s1 s1' := by
  have hl := h.linksEnd
  have hl' := hs.forest.linksEnd
  refine ⟨h1'.forest hs.forest, ?_, ?_, fun v => ?_, fun v => ?_⟩
  · rw [h1'.size hl', h1.size hl, hs.size]
  · rw [h1'.aliases, h1.aliases, hs.aliases]
  · rw [h1'.root hl', h1.root hl, hs.root]
  · rw [h1'.content hl', h1.content hl, h1.aliases]
    exact hs.content v

theorem put (hs : Similar back s s') (h : s.Forest) (hr : r < s.size) (hroot : s.root r = r)
    {c c' : Content} (hc : c.Similar s.aliases back c') :
    Similar back (s.put r c) (s'.put r c') := by
  obtain ⟨_, hro, hco⟩ := put_view h hr hroot c
  obtain ⟨hf', hro', hco'⟩ := put_view hs.forest (by rw [hs.size]; exact hr)
    (by rw [hs.root]; exact hroot) c'
  refine ⟨hf', by rw [put_size, put_size, hs.size], hs.aliases, fun v => ?_, fun v => ?_⟩
  · rw [hro, hro', hs.root]
  · rw [hco, hco', hs.root]
    split
    · exact hc
    · exact hs.content v

theorem link (hs : Similar back s s') (h : s.Forest) (ha : a < s.size) (hb : b < s.size)
    (hra : s.root a = a) (hrb : s.root b = b) (hab : a ≠ b) :
    Similar back (s.link a b) (s'.link a b) := by
  obtain ⟨_, hro, hco⟩ := link_view h ha hb hra hrb hab
  obtain ⟨hf', hro', hco'⟩ := link_view hs.forest (by rw [hs.size]; exact ha)
    (by rw [hs.size]; exact hb) (by rw [hs.root]; exact hra) (by rw [hs.root]; exact hrb) hab
  refine ⟨hf', by rw [link_size, link_size, hs.size], hs.aliases, fun v => ?_, fun v => ?_⟩
  · rw [hro, hro', hs.root]
  · rw [hco, hco', hs.root]
    split
    · exact hs.content b
    · exact hs.content v

theorem fresh (hs : Similar back s s') (h : s.Forest) (rank rank' : Rank) (hint : Option String) :
    Similar back (s.fresh rank hint).2 (s'.fresh rank' hint).2 := by
  obtain ⟨_, hro, hco⟩ := fresh_view h rank hint
  obtain ⟨hf', hro', hco'⟩ := fresh_view hs.forest rank' hint
  refine ⟨hf', by rw [fresh_size, fresh_size, hs.size], hs.aliases, fun v => ?_, fun v => ?_⟩
  · rw [hro, hro', hs.root]
  · rw [hco, hco', hs.size]
    split
    · exact .unbound rank rank' hint
    · exact hs.content v

theorem poison (hs : Similar back s s') (h : s.Forest) (hv : v < s.size) :
    Similar back (s.poison v) (s'.poison v) := by
  have hv' : v < s'.size := by rw [hs.size]; exact hv
  obtain ⟨_, hro, hco⟩ := poison_view h hv
  obtain ⟨hf', hro', hco'⟩ := poison_view hs.forest hv'
  refine ⟨hf', ?_, by rw [poison_aliases, poison_aliases, hs.aliases], fun w => ?_, fun w => ?_⟩
  · rw [poison_size hs.forest hv', poison_size h hv, hs.size]
  · rw [hro, hro', hs.root]
  · rw [hco, hco', hs.root, hs.root, poison_aliases]
    split
    · exact .poisoned
    · exact hs.content w

theorem lowerRanks (hs : Similar back s s') (h : s.Forest) {vs vs' : List Var}
    (hvs : ∀ v ∈ vs, v < s.size) (hvs' : ∀ v ∈ vs', v < s'.size) (rank rank' : Rank) :
    Similar back (s.lowerRanks vs rank) (s'.lowerRanks vs' rank') := by
  obtain ⟨hf, hal⟩ := lowerRanks_alike h rank vs
  obtain ⟨hf', hal'⟩ := lowerRanks_alike hs.forest rank' vs'
  refine ⟨hf', by rw [hal.size, hal'.size, hs.size], by rw [hal.aliases, hal'.aliases, hs.aliases],
    fun v => by rw [hal.root, hal'.root, hs.root], fun v => ?_⟩
  rw [hal.aliases, lowerRanks_content h rank hvs, lowerRanks_content hs.forest rank' hvs']
  have hc := hs.content v
  generalize s.content v = c, s'.content v = c' at hc
  cases hc with
  | unbound => split <;> split <;> exact .unbound _ _ _
  | bound htu => split <;> split <;> exact .bound htu
  | poisoned => split <;> split <;> exact .poisoned

theorem threads {σ α β : Type} {f g : Nat → α → StateT σ Option β} {R : α → α → Prop}
    {k : Nat} {xs xs' : List α} {ys : List β} {st st' : σ} (h : Threads (f k) xs st ys st')
    (hR : List.Forall₂ R xs xs')
    (hf : ∀ x x' st y st', R x x' → (f k x).run st = some (y, st') →
      EnoughFuel fun k' => (g k' x').run st = some (y, st')) :
    EnoughFuel fun k' => Threads (g k') xs' st ys st' := by
  induction h generalizing xs' with
  | nil => cases hR; exact .intro fun _ => .nil
  | cons hx _ ih =>
    cases hR with
    | cons hxx' hR =>
      exact ((hf _ _ _ _ _ hxx' hx).and (ih hR)).mono fun k' ⟨hx, h⟩ => .cons hx h

/-- Similar types are read alike off similar stores. -/
theorem readType (hs : Similar back s s') : ∀ (k : Nat) (t u : Ty), t.Similar s.aliases back u →
    ∀ nm n nm', (s.readType k t).run nm = some (n, nm') →
      EnoughFuel fun k' => (s'.readType k' u).run nm = some (n, nm') := by
  intro k
  induction k with
  | zero => intro t u _ nm n nm' hrun; cases hrun
  | succ k ih =>
    have hfunc : ∀ {a b a' b' : Ty}, a.Similar s.aliases back a' →
        b.Similar s.aliases back b' → ∀ nm n nm', (s.readType (k + 1) (.func a b)).run nm = some (n, nm') →
        EnoughFuel fun k' => (s'.readType k' (.func a' b')).run nm = some (n, nm') := by
      intro a b a' b' ha hb nm n nm' hrun
      obtain ⟨na, nb, nm1, hra, hrb, rfl⟩ := readType_func.mp hrun
      refine .of_succ (((ih a a' ha _ _ _ hra).and (ih b b' hb _ _ _ hrb)).mono fun k' ⟨hra, hrb⟩ => ?_)
      exact readType_func.mpr ⟨na, nb, nm1, hra, hrb, rfl⟩
    have happ : ∀ {name : String} {args args' : List Ty},
        (∀ t, s.aliases.expand name args ≠ some (.ok t)) →
        (∀ t, s.aliases.expand name args' ≠ some (.ok t)) →
        List.Forall₂ (Ty.Similar s.aliases back) args args' →
        ∀ nm n nm', (s.readType (k + 1) (.app name args)).run nm = some (n, nm') →
        EnoughFuel fun k' => (s'.readType k' (.app name args')).run nm = some (n, nm') := by
      intro name args args' hne hne' hargs nm n nm' hrun
      obtain ⟨ts, hts, rfl⟩ := (readType_app hne).mp hrun
      have hts' := threads (f := s.readType) (g := s'.readType) hts hargs
        fun a a' st y st' haa' hrun => ih a a' haa' _ _ _ hrun
      refine .of_succ (hts'.mono fun k' hts' => ?_)
      exact (readType_app (by rw [hs.aliases]; exact hne')).mpr ⟨ts, hts', rfl⟩
    have hrecord : ∀ {fields fields' : List (String × Ty)} {ext : Option Var},
        Assoc.Related (Ty.Similar s.aliases back) fields fields' →
        ∀ nm n nm', (s.readType (k + 1) (.record fields ext)).run nm = some (n, nm') →
        EnoughFuel fun k' => (s'.readType k' (.record fields' ext)).run nm = some (n, nm') := by
      intro fields fields' ext hrel nm n nm' hrun
      obtain ⟨fs, nm1, hfs, hend⟩ := readType_record.mp hrun
      have hfs' := threads (f := s.readField) (g := s'.readField) hfs hrel
        fun f f' st y st' ⟨hkey, hff'⟩ hrun => by
          obtain ⟨hrun, hname⟩ := readField_run.mp hrun
          exact (ih f.2 f'.2 hff' _ _ _ hrun).mono fun k' hrun =>
            readField_run.mpr ⟨hrun, hkey.symm.trans hname⟩
      cases ext with
      | none =>
        exact .of_succ (hfs'.mono fun k' hfs' => readType_record.mpr ⟨fs, nm1, hfs', hend⟩)
      | some v =>
        obtain ⟨rest, hrest, rfl⟩ := hend
        refine .of_succ ((hfs'.and (ih _ _ (.refl (.var v)) _ _ _ hrest)).mono
          fun k' ⟨hfs', hrest⟩ => ?_)
        exact readType_record.mpr ⟨fs, nm1, hfs', rest, hrest, rfl⟩
    intro t u htu
    induction htu with
    | refl t =>
      intro nm n nm' hrun
      cases t with
      | var v =>
        cases hc : s.content v with
        | bound t =>
          obtain ⟨u, hc', htu⟩ := hs.bound hc
          rw [readType_bound hc] at hrun
          exact .of_succ ((ih t u htu _ _ _ hrun).mono fun k' h => by rw [readType_bound hc']; exact h)
        | poisoned =>
          rw [readType_poisoned hc] at hrun
          exact .of_succ (.intro fun k' => by
            rw [readType_poisoned (hs.poisoned_iff.mpr hc)]; exact hrun)
        | unbound rank hint =>
          obtain ⟨rank', hc'⟩ := hs.unbound hc
          rw [readType_unbound hc] at hrun
          exact .of_succ (.intro fun k' => by rw [readType_unbound hc', hs.root]; exact hrun)
      | func a b => exact hfunc (.refl a) (.refl b) nm n nm' hrun
      | app name args =>
        by_cases hex : ∃ t, s.aliases.expand name args = some (.ok t)
        · obtain ⟨t, hex⟩ := hex
          rw [readType_expanded hex] at hrun
          refine .of_succ ((ih t t (.refl t) _ _ _ hrun).mono fun k' h => ?_)
          rw [readType_expanded (by rw [hs.aliases]; exact hex)]
          exact h
        · have hne : ∀ t, s.aliases.expand name args ≠ some (.ok t) := fun t ht => hex ⟨t, ht⟩
          exact happ hne hne (List.forall₂_same.mpr fun a _ => .refl a) nm n nm' hrun
      | record fields ext =>
        exact hrecord (List.forall₂_same.mpr fun f _ => ⟨rfl, .refl f.2⟩) nm n nm' hrun
    | func ha hb _ _ => exact hfunc ha hb
    | app hex hlen h _ =>
      refine happ (fun t ht => ?_) (fun t ht => ?_) (Ty.Similar.forall₂ hlen h)
      · rw [hex] at ht; cases ht
      · rw [AliasTable.expand_none_congr hlen hex] at ht; cases ht
    | record hkeys h _ => exact hrecord (Assoc.related_of_zip hkeys h)
    | left hex _ htu _ =>
      intro nm n nm' hrun
      rw [readType_expanded hex] at hrun
      exact ih _ _ htu _ _ _ hrun
    | right _ hex _ _ ih' =>
      intro nm n nm' hrun
      refine .of_succ ((ih' nm n nm' hrun).mono fun k' h => ?_)
      rw [readType_expanded (by rw [hs.aliases]; exact hex)]
      exact h

theorem snapshot (hs : Similar back s s') (htu : t.Similar s.aliases back u) {k : Nat}
    {n : NamedType} (h : s.snapshot k t = some n) :
    EnoughFuel fun k' => s'.snapshot k' u = some n := by
  obtain ⟨⟨n', nm'⟩, hrun, rfl⟩ := Option.map_eq_some_iff.mp h
  exact (hs.readType k t u htu _ _ _ hrun).mono fun k' hrun =>
    Option.map_eq_some_iff.mpr ⟨_, hrun, rfl⟩

end Similar
end Store
end TypeSolver
