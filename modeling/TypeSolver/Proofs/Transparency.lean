import TypeSolver.Proofs.Circles
import TypeSolver.Proofs.MostGeneral
import TypeSolver.Proofs.Similar

/-!
# TypeSolver.Proofs.Transparency

Unification and aliases. A call about types whose aliases are expanded takes the same steps on a
similar store as the call about the types as they are written, and both end alike, with one
exception (`Runs.similar`): the occurs check looks at aliases as they are written, so it can find
a variable that no expansion shows. Then the error names a variable that does not occur in the
type it shows (`Hidden`). So expanding all aliases of two types changes neither whether they can
be unified nor what a variable stands for afterwards, if no alias stands for a variable and the
occurs check did not fail in this way (`unify_unfolded_iff`).

Both conditions are needed (`unify_sees_alias`).
-/

namespace TypeSolver

inductive NamedType.Shows (x : String) : NamedType → Prop where
  | var : Shows x (.var x)
  | arg {a r : NamedType} : Shows x a → Shows x (.func a r)
  | ret {a r : NamedType} : Shows x r → Shows x (.func a r)
  | app {name : String} {args : List NamedType} {a : NamedType} : a ∈ args → Shows x a →
      Shows x (.app name args)
  | field {fields : List (String × NamedType)} {ext : Option String} {f : String × NamedType} :
      f ∈ fields → Shows x f.2 → Shows x (.record fields ext)
  | ext {fields : List (String × NamedType)} : Shows x (.record fields (some x))

namespace Store

/-! ## Similar lists -/

variable {α β : Type} {l r t u l' r' : Ty} {k : Nat} {n : NamedType} {a b v : Var} {rank : Rank}
  {hint : Option String} {table : AliasTable} {fields fields' : List (String × Ty)}
  {rowL rowR rowL' rowR' : Row}

theorem forall₂_zip {R : α → α → Prop} {S : β → β → Prop} {as as' : List α} {bs bs' : List β}
    (ha : List.Forall₂ R as as') (hb : List.Forall₂ S bs bs') :
    List.Forall₂ (fun p p' => R p.1 p'.1 ∧ S p.2 p'.2) (as.zip bs) (as'.zip bs') := by
  induction ha generalizing bs bs' with
  | nil => simp
  | cons ha _ ih =>
    cases hb with
    | nil => simp
    | cons hb hbs => exact .cons ⟨ha, hb⟩ (ih hbs)

theorem forall₂_shared {R : α → α → Prop} {S : β → β → Prop} {fs fs' : List (String × α)}
    {gs gs' : List (String × β)} (hf : Assoc.Related R fs fs') (hg : Assoc.Related S gs gs') :
    List.Forall₂ (fun p p' => R p.1 p'.1 ∧ S p.2 p'.2)
      (Assoc.shared fs gs) (Assoc.shared fs' gs') := by
  induction hf with
  | nil => exact .nil
  | @cons f f' fs fs' hff' _ ih =>
    obtain ⟨k, a⟩ := f
    obtain ⟨k', a'⟩ := f'
    obtain ⟨rfl, haa'⟩ := hff'
    rw [Assoc.shared, Assoc.shared, List.filterMap_cons, List.filterMap_cons]
    have hget := hg.get? k
    dsimp only at hget haa' ⊢
    generalize Assoc.get? gs k = b, Assoc.get? gs' k = b' at hget
    cases hget with
    | none => exact ih
    | some hbb' => exact .cons ⟨haa', hbb'⟩ ih

/-! ## What is shown -/

variable {s s' : Store} {o : Outcome}

theorem shows_closeRecord {x : String} {fs : List (String × NamedType)} {rest : NamedType}
    (h : (closeRecord fs rest).Shows x) : (∃ f ∈ fs, f.2.Shows x) ∨ rest.Shows x := by
  cases rest with
  | var name =>
    cases h with
    | field hf hx => exact .inl ⟨_, hf, hx⟩
    | ext => exact .inr .var
  | record more rest =>
    cases h with
    | field hf hx =>
      rcases Assoc.mem_of_mem_union hf with hf | hf
      · exact .inl ⟨_, hf, hx⟩
      · exact .inr (.field hf hx)
    | ext => exact .inr .ext
  | _ =>
    cases h with
    | field hf hx => exact .inl ⟨_, hf, hx⟩

theorem readType_shows (hw : s.WellFormed) {nm nm' : Naming}
    (hrun : (s.readType k t).run nm = some (n, nm')) (ht : t.Fits s.size) (hnm : nm.Plain) :
    nm'.Plain ∧ ∀ x, n.Shows x → ∃ v ∈ t.vars, ∃ r, s.Reaches v r ∧ x = "t" ++ toString r := by
  refine readType_induction (motive := fun _ t nm n nm' => t.Fits s.size → nm.Plain →
    nm'.Plain ∧ ∀ x, n.Shows x → ∃ v ∈ t.vars, ∃ r, s.Reaches v r ∧ x = "t" ++ toString r)
    ?bound ?poisoned ?unbound ?func ?expanded ?app ?record hrun ht hnm
  case bound =>
    intro _ v t nm n nm' hc ih _ hnm
    have hk : s.kind v = .bound t := kind_eq_bound.mpr hc
    obtain ⟨hnm', hx⟩ := ih (hw.fits v t hk) hnm
    refine ⟨hnm', fun x hxn => ⟨v, by simp, ?_⟩⟩
    obtain ⟨w, hwt, r, hr, rfl⟩ := hx x hxn
    exact ⟨r, .head ((edge_root hw.forest).mpr ⟨t, hk, w, hwt, rfl⟩) hr, rfl⟩
  case poisoned => exact fun _ _ hnm => ⟨hnm, fun x hxn => by cases hxn⟩
  case unbound =>
    intro _ v rank hint nm hc _ hnm
    obtain ⟨hname, hplain⟩ := nameOf_of_plain hnm (s.root v) hint
    refine ⟨hplain, fun x hxn => ⟨v, by simp, s.root v, .refl, ?_⟩⟩
    cases hxn
    exact hname
  case func =>
    intro _ arg ret nm a nm1 r nm' iha ihr ht hnm
    obtain ⟨ha, hr⟩ := Ty.over_func.mp ht
    obtain ⟨hnm1, hxa⟩ := iha ha hnm
    obtain ⟨hnm', hxr⟩ := ihr hr hnm1
    refine ⟨hnm', fun x hxn => ?_⟩
    cases hxn with
    | arg hxn =>
      obtain ⟨v, hv, h⟩ := hxa x hxn
      exact ⟨v, by simp [hv], h⟩
    | ret hxn =>
      obtain ⟨v, hv, h⟩ := hxr x hxn
      exact ⟨v, by simp [hv], h⟩
  case expanded =>
    intro _ name args t nm n nm' hex ih ht hnm
    have hover := hw.usable.expand_over hex (V := (· ∈ (Ty.app name args).vars))
      (Ty.over_app.mp (Ty.Over.restrict ht fun _ hv => hv))
    obtain ⟨hnm', hx⟩ := ih (hw.usable.expand_over hex (Ty.over_app.mp ht)) hnm
    refine ⟨hnm', fun x hxn => ?_⟩
    obtain ⟨v, hv, h⟩ := hx x hxn
    exact ⟨v, hover.mem hv, h⟩
  case app =>
    intro _ name args nm ts nm' hne hts ht hnm
    obtain ⟨hnm', hall⟩ := hts.forall₂ (I := Naming.Plain)
      (fun a ha _ _ _ hnm h => h (Ty.over_app.mp ht a ha) hnm) hnm
    refine ⟨hnm', fun x hxn => ?_⟩
    cases hxn with
    | app hmem hxn =>
      obtain ⟨a, ha, hx⟩ := exists_of_forall₂_right hall hmem
      obtain ⟨v, hv, h⟩ := hx x hxn
      exact ⟨v, Ty.mem_vars_app.mpr ⟨a, ha, hv⟩, h⟩
  case record =>
    intro _ fields ext nm fs nm1 n nm' hfs hend ht hnm
    obtain ⟨_, hf, hext⟩ := Ty.over_record.mp ht
    obtain ⟨hnm1, hall⟩ := hfs.forall₂ (I := Naming.Plain)
      (fun f hmem _ _ _ hnm h => h.2 (hf f hmem) hnm) hnm
    have hfields : ∀ g ∈ fs, ∀ x, g.2.Shows x → ∃ v ∈ (Ty.record fields ext).vars,
        ∃ r, s.Reaches v r ∧ x = "t" ++ toString r := by
      intro g hg x hxn
      obtain ⟨f, hmem, hx⟩ := exists_of_forall₂_right hall hg
      obtain ⟨v, hv, h⟩ := hx x hxn
      exact ⟨v, Ty.mem_vars_record.mpr (.inl ⟨f, hmem, hv⟩), h⟩
    cases ext with
    | none =>
      obtain ⟨rfl, rfl⟩ := hend
      refine ⟨hnm1, fun x hxn => ?_⟩
      cases hxn with
      | field hg hxn => exact hfields _ hg x hxn
    | some v =>
      obtain ⟨rest, ih, rfl⟩ := hend
      obtain ⟨hnm', hx⟩ := ih (Ty.over_var.mpr (hext v rfl)) hnm1
      refine ⟨hnm', fun x hxn => ?_⟩
      rcases shows_closeRecord hxn with ⟨g, hg, hxn⟩ | hxn
      · exact hfields g hg x hxn
      · obtain ⟨w, hw, h⟩ := hx x hxn
        exact ⟨w, by simp at hw ⊢; exact .inr hw.symm, h⟩

theorem snapshot_shows (hw : s.WellFormed) (ht : t.Fits s.size) (h : s.snapshot k t = some n)
    {x : String} (hx : n.Shows x) : ∃ v ∈ t.vars, ∃ r, s.Reaches v r ∧ x = "t" ++ toString r := by
  obtain ⟨⟨n', nm'⟩, hrun, rfl⟩ := Option.map_eq_some_iff.mp h
  exact (readType_shows hw hrun ht ⟨rfl, by simp⟩).2 x hx

/-- An unbound variable is shown by the name of its class. -/
theorem snapshot_unbound (hc : s.content v = .unbound rank hint)
    (h : s.snapshot k (.var v) = some n) : n = .var ("t" ++ toString (s.root v)) := by
  obtain ⟨⟨n', nm'⟩, hrun, rfl⟩ := Option.map_eq_some_iff.mp h
  cases k with
  | zero => cases hrun
  | succ k =>
    rw [readType_unbound hc, (nameOf_of_plain ⟨rfl, by simp⟩ (s.root v) hint).1] at hrun
    cases hrun
    rfl

theorem not_shows (hw : s.WellFormed) (ht : t.Fits s.size) (h : s.snapshot k t = some n)
    (ha : a ∉ s.reach t) : ¬ n.Shows ("t" ++ toString a) := by
  intro hx
  obtain ⟨v, hv, r, hr, hname⟩ := snapshot_shows hw ht h hx
  rw [Meaning.name_inj hname] at ha
  exact ha ((Store.mem_reach hw.toFormed ht).mpr ⟨v, hv, hr⟩)

/-! ## Similar calls -/

variable {back : Bool}

structure SimilarRows (table : AliasTable) (back : Bool) (row row' : Row) : Prop where
  fields : Assoc.Related (Ty.Similar table back) row.fields row'.fields
  tail : row'.tail = row.tail

/-- Calls about types that differ in their aliases only. -/
inductive SimilarCalls (table : AliasTable) (back : Bool) : Call → Call → Prop where
  | types {l r l' r' : Ty} : l.Similar table back l' → r.Similar table back r' →
      SimilarCalls table back (.types l r) (.types l' r')
  | vars (v w : Var) : SimilarCalls table back (.vars v w) (.vars v w)
  | var (side : Side) (v : Var) {t t' : Ty} : t.Similar table back t' →
      SimilarCalls table back (.var side v t) (.var side v t')
  | terms {l r l' r' : Ty} : l.Similar table back l' → r.Similar table back r' →
      SimilarCalls table back (.terms l r) (.terms l' r')
  | rows {rowL rowR rowL' rowR' : Row} {l r l' r' : Ty} : SimilarRows table back rowL rowL' →
      SimilarRows table back rowR rowR' → l.Similar table back l' → r.Similar table back r' →
      SimilarCalls table back (.rows rowL rowR l r) (.rows rowL' rowR' l' r')
  | tails (v w : Var) (rank rank' : Rank) {left right left' right' : List (String × Ty)} :
      Assoc.Related (Ty.Similar table back) left left' →
      Assoc.Related (Ty.Similar table back) right right' →
      SimilarCalls table back (.tails v w rank left right) (.tails v w rank' left' right')

/-- The occurs check failed, with an error that names a variable which does not occur in the type
it shows. -/
def Hidden (o : Outcome) : Prop :=
  ∃ x ty s, o = .failed (.occurs (.var x) ty) s ∧ ¬ ty.Shows x

theorem not_hidden_unified : ¬ Hidden (.unified s) := by
  rintro ⟨x, ty, s', heq, _⟩
  cases heq

theorem Hidden.of_failed {m : Mismatch} (h : Hidden (.failed m s)) (s' : Store) :
    Hidden (.failed m s') := by
  obtain ⟨x, ty, _, heq, hn⟩ := h
  cases heq
  exact ⟨x, ty, s', rfl, hn⟩

theorem Hidden.exists_failed (h : Hidden o) : ∃ m s, o = .failed m s := by
  obtain ⟨x, ty, s, rfl, _⟩ := h
  exact ⟨_, s, rfl⟩

/-- Both succeed or both fail with one error. Where aliases may have been put back, the second can
also fail because one of them hides a variable. -/
inductive SimilarOutcomes (back : Bool) : Outcome → Outcome → Prop where
  | unified {s s' : Store} : Similar back s s' → SimilarOutcomes back (.unified s) (.unified s')
  | failed (m : Mismatch) {s s' : Store} : Similar back s s' →
      SimilarOutcomes back (.failed m s) (.failed m s')
  | hidden {o o' : Outcome} : back = true → Hidden o' → SimilarOutcomes back o o'

/-- One of these outcomes is similar to `o`, unless `o` failed in a hidden way. -/
def Mirrored (back : Bool) (outcomes : Outcome → Prop) (o : Outcome) : Prop :=
  (∃ o', outcomes o' ∧ SimilarOutcomes back o o') ∨ Hidden o

namespace Mirrored

variable {P Q : Outcome → Prop}

theorem imp (h : Mirrored back P o) (hPQ : ∀ o', P o' → Q o') : Mirrored back Q o :=
  h.imp_left fun ⟨o', hP, hsim⟩ => ⟨o', hPQ o' hP, hsim⟩

theorem andThen (h : Mirrored back P (.unified s))
    (hfail : ∀ m s', P (.failed m s') → ∃ s1', Q (.failed m s1'))
    (hnext : ∀ s', P (.unified s') → Similar back s s' → Mirrored back Q o) :
    Mirrored back Q o := by
  rcases h with ⟨o', hP, hsim⟩ | hhid
  · cases hsim with
    | unified hs => exact hnext _ hP hs
    | hidden hback hhid =>
      obtain ⟨m, s', rfl⟩ := hhid.exists_failed
      obtain ⟨s1', hQ⟩ := hfail m s' hP
      exact .inl ⟨_, hQ, .hidden hback (hhid.of_failed s1')⟩
  · exact absurd hhid not_hidden_unified

theorem failed {m : Mismatch} {s1 : Store} (h : Mirrored back P (.failed m s))
    (hPQ : ∀ m' s', P (.failed m' s') → ∃ s1', Q (.failed m' s1') ∧
      (Similar back s s' → Similar back s1 s1')) : Mirrored back Q (.failed m s1) := by
  rcases h with ⟨o', hP, hsim⟩ | hhid
  · cases hsim with
    | failed _ hs =>
      obtain ⟨s1', hQ, hs1⟩ := hPQ _ _ hP
      exact .inl ⟨_, hQ, .failed m (hs1 hs)⟩
    | hidden hback hhid =>
      obtain ⟨m', s', rfl⟩ := hhid.exists_failed
      obtain ⟨s1', hQ, _⟩ := hPQ m' s' hP
      exact .inl ⟨_, hQ, .hidden hback (hhid.of_failed s1')⟩
  · exact .inr (hhid.of_failed s1)

theorem onFailure {f f' : Store → Store} (h : Mirrored back P o)
    (hPQ : ∀ o', P o' → Q (o'.onFailure f'))
    (hf : ∀ m s s', o = .failed m s → Similar back s s' → Similar back (f s) (f' s')) :
    Mirrored back Q (o.onFailure f) := by
  rcases h with ⟨o', hP, hsim⟩ | ⟨x, ty, s, rfl, hn⟩
  · refine .inl ⟨_, hPQ o' hP, ?_⟩
    cases hsim with
    | unified hs => exact .unified hs
    | failed m hs => exact .failed m (hf m _ _ rfl hs)
    | hidden hback hhid =>
      obtain ⟨m, s', rfl⟩ := hhid.exists_failed
      exact .hidden hback (hhid.of_failed (f' s'))
  · exact .inr ⟨x, ty, f s, rfl, hn⟩

end Mirrored

/-! ## Similar stores, side by side -/

/-- Similar stores that calls are made on. If aliases may have been put back, bindings come to an
end: an occurs check that fails for the second store only has to show its types. -/
structure Alongside (back : Bool) (s s' : Store) : Prop extends Similar back s s' where
  wellFormed : s.WellFormed
  wellFormed' : s'.WellFormed
  grounded : back = true → s.Grounded

variable {s1 s1' : Store}

namespace Alongside

theorem relinked (hs : Alongside back s s') (h : Relinked s s1) (h' : Relinked s' s1') :
    Alongside back s1 s1' where
  toSimilar := hs.toSimilar.relinked hs.wellFormed.forest h h'
  wellFormed := (h.steps hs.wellFormed.forest (g := .any) (p := false)).wellFormed hs.wellFormed
  wellFormed' := (h'.steps hs.forest (g := .any) (p := false)).wellFormed hs.wellFormed'
  grounded hback := (h.alike hs.wellFormed.forest.linksEnd).grounded (hs.grounded hback)

theorem find (hs : Alongside back s s') (h : s.find v = (a, s1)) :
    ∃ s1', s'.find v = (a, s1') ∧ Relinked s' s1' ∧ Alongside back s1 s1' := by
  obtain ⟨ha, rfl⟩ := Prod.ext_iff.mp h
  obtain ⟨s1', hfind, h'⟩ := Relinked.refl.find_eq hs.forest.linksEnd v
  refine ⟨s1', ?_, h', hs.relinked (.single s v) h'⟩
  rw [hfind, hs.root, ← find_fst, ha]

theorem find_both (hs : Alongside back s s') {w : Var} {s2 : Store} (hv : s.find v = (a, s1))
    (hw : s1.find w = (b, s2)) : ∃ s1' s2', s'.find v = (a, s1') ∧ s1'.find w = (b, s2') ∧
      Relinked s' s2' ∧ Alongside back s2 s2' := by
  obtain ⟨s1', hv', h1, hs1⟩ := hs.find hv
  obtain ⟨s2', hw', h2, hs2⟩ := hs1.find hw
  exact ⟨s1', s2', hv', hw', h1.trans h2, hs2⟩

theorem lowerRanks_reach (hs : Alongside back s s') (ht : t.Fits s.size) (hu : u.Fits s'.size)
    (rank rank' : Rank) :
    Similar back (s.lowerRanks (s.reach t) rank) (s'.lowerRanks (s'.reach u) rank') :=
  hs.lowerRanks hs.wellFormed.forest (reach_lt hs.wellFormed.toFormed ht)
    (reach_lt hs.wellFormed'.toFormed hu) rank rank'

end Alongside

theorem similar_record (h : Assoc.Related (Ty.Similar table back) fields fields')
    (ext : Option Var) : (Ty.record fields ext).Similar table back (.record fields' ext) := by
  refine .record h.keys_eq fun k t t' hmem => ?_
  exact ((List.forall₂_iff_zip.mp h).2 hmem).2

/-! ## What the parts of a call do -/

theorem Similar.row (hs : Similar back s s') {ext : Option Var} {row : Row}
    (h : s.row k fields ext = some row)
    (hf : Assoc.Related (Ty.Similar s.aliases back) fields fields') : ∃ row',
      SimilarRows s.aliases back row row' ∧ EnoughFuel fun k' => s'.row k' fields' ext = some row' := by
  induction k generalizing fields fields' ext with
  | zero => cases ext <;> cases h
  | succ k ih =>
    cases ext with
    | none => cases h; exact ⟨⟨fields', .closed⟩, ⟨hf, rfl⟩, .of_succ (.intro fun _ => rfl)⟩
    | some v =>
      rw [Store.row] at h
      cases hc : s.content v with
      | unbound rank hint =>
        simp only [hc] at h
        cases h
        obtain ⟨rank', hc'⟩ := hs.unbound hc
        refine ⟨⟨fields', .opened (s.root v)⟩, ⟨hf, rfl⟩, .of_succ (.intro fun k' => ?_)⟩
        rw [Store.row]
        simp only [hc', hs.root]
      | poisoned =>
        simp only [hc] at h
        cases h
        refine ⟨⟨fields', .spoiled⟩, ⟨hf, rfl⟩, .of_succ (.intro fun k' => ?_)⟩
        rw [Store.row]
        simp only [hs.poisoned_iff.mpr hc]
      | bound t =>
        obtain ⟨u, hc', htu⟩ := hs.bound hc
        simp only [hc] at h
        cases hhd : s.aliases.head k t with
        | none => simp only [hhd] at h; cases h
        | some hd =>
          obtain ⟨hd', hsim, hhd'⟩ := htu.head hhd
          rw [← hs.aliases] at hhd'
          simp only [hhd] at h
          cases hsim with
          | stuck t' =>
            obtain ⟨n, hn, rfl⟩ := Option.map_eq_some_iff.mp h
            refine ⟨⟨fields', .spoiled⟩, ⟨hf, rfl⟩,
              .of_succ ((hhd'.and (hs.snapshot (.refl t') hn)).mono fun k' hk => ?_)⟩
            rw [Store.row]
            simp only [hc', hk.1, hk.2, Option.map_some]
          | settled hsame =>
            cases hsame with
            | record hrel =>
              obtain ⟨row', hrows, hrow'⟩ := ih h (hf.union hrel)
              refine ⟨row', hrows, .of_succ ((hhd'.and hrow').mono fun k' hk => ?_)⟩
              rw [Store.row]
              simp only [hc', hk.1]
              exact hk.2
            | _ =>
              cases h
              refine ⟨⟨fields', .spoiled⟩, ⟨hf, rfl⟩, .of_succ (hhd'.mono fun k' hhd' => ?_)⟩
              rw [Store.row]
              simp only [hc', hhd']

theorem Similar.failWith (hs : Similar back s s') (hf : s.Forest)
    (hl : l.Similar s.aliases back l') (hr : r.Similar s.aliases back r')
    {mismatch : NamedType → NamedType → Mismatch} (h : s.failWith k l r mismatch = o)
    (ho : o ≠ .outOfFuel) : EnoughFuel fun k' => ∃ o', s'.failWith k' l' r' mismatch = o' ∧
      o' ≠ .outOfFuel ∧ SimilarOutcomes back o o' := by
  rcases failWith_eq .refl hf.linksEnd k l r mismatch with
    ⟨hfuel, _⟩ | ⟨nl, nr, s1, hnl, hnr, hfail, h1⟩
  · exact absurd (h.symm.trans hfuel) ho
  refine ((hs.snapshot hl hnl).and (hs.snapshot hr hnr)).mono fun k' ⟨hnl', hnr'⟩ => ?_
  rcases failWith_eq .refl hs.forest.linksEnd k' l' r' mismatch with
    ⟨_, hnone | hnone⟩ | ⟨_, _, s1', hnl'', hnr'', hfail', h1'⟩
  · rw [hnl'] at hnone; cases hnone
  · rw [hnr'] at hnone; cases hnone
  · rw [hnl'] at hnl''
    rw [hnr'] at hnr''
    cases hnl''
    cases hnr''
    exact ⟨_, hfail', by simp, h ▸ hfail ▸ .failed _ (hs.relinked hf h1 h1')⟩

/-- The class is in the type, so both are shown. -/
theorem adopt_fails (hs : s.LinksEnd) {become : Store → Store} {shown shownTy : NamedType}
    (ha : a ∈ s.reach t) (hshown : s.snapshot k (.var a) = some shown)
    (hshownTy : s.snapshot k t = some shownTy) : ∃ s1,
      s.adopt k a rank t become = .failed (.occurs shown shownTy) (s1.poison a) ∧
        Relinked s s1 := by
  rcases adopt_of_mem hs rank become ha k with
    ⟨_, hnone | hnone⟩ | ⟨_, _, s1, h, h', heq, h1⟩
  · rw [hshown] at hnone; cases hnone
  · rw [hshownTy] at hnone; cases hnone
  · rw [hshown] at h
    rw [hshownTy] at h'
    cases h
    cases h'
    exact ⟨s1, heq, h1⟩

theorem Alongside.adopt (hs : Alongside back s s') (ha : a < s.size) (hra : s.root a = a)
    (ht : t.Fits s.size) (hu : u.Fits s'.size) (htu : t.Similar s.aliases back u)
    {become become' : Store → Store} (hbecome : ∀ s1 s1', s1.Forest → Alike s s1 →
      Similar back s1 s1' → Similar back (become s1) (become' s1'))
    (hca : s.content a = .unbound rank hint) (hadopt : s.adopt k a rank t become = o)
    (ho : o ≠ .outOfFuel) (rank' : Rank) : Mirrored back
      (fun o' => ∃ k', s'.adopt k' a rank' u become' = o' ∧ o' ≠ .outOfFuel) o := by
  have hl := hs.wellFormed.forest.linksEnd
  have hl' := hs.forest.linksEnd
  by_cases hmem : a ∈ s.reach t
  · rcases adopt_of_mem hl rank become hmem k with
      ⟨hfuel, _⟩ | ⟨na, nt, s1, hna, hnt, hfail, h1⟩
    · exact absurd (hadopt.symm.trans hfuel) ho
    obtain ⟨k', hna', hnt'⟩ :=
      ((hs.snapshot (.refl (.var a)) hna).and (hs.snapshot htu hnt)).exists_fuel
    obtain rfl := hadopt.symm.trans hfail
    by_cases hmem' : a ∈ s'.reach u
    · obtain ⟨s1', hfail', h1'⟩ := adopt_fails hl' hmem' hna' hnt'
      have hs1 := hs.relinked h1 h1'
      refine .inl ⟨_, ⟨k', hfail', by simp⟩, .failed _ (hs1.poison hs1.wellFormed.forest ?_)⟩
      rw [h1.size hl]
      exact ha
    · refine .inr ⟨"t" ++ toString a, nt, s1.poison a, ?_,
        not_shows hs.wellFormed' hu hnt' hmem'⟩
      rw [snapshot_unbound hca hna, hra]
  · obtain ⟨s1, h1, heq⟩ := adopt_of_not_mem hl rank become hmem
    obtain rfl := hadopt.symm.trans (heq k)
    by_cases hmem' : a ∈ s'.reach u
    · -- only types with aliases put back lead to more classes
      have hback : back = true := by
        cases back with
        | true => rfl
        | false => exact absurd (hs.mem_reach hs.wellFormed ht htu hmem') hmem
      have hread := (hs.grounded hback).readable hs.wellFormed.toFormed hs.wellFormed.usable
      obtain ⟨j, hja, hjt⟩ := ((hread (.var a)).and (hread t)).exists_fuel
      obtain ⟨na, _, hna⟩ := hja {}
      obtain ⟨nt, _, hnt⟩ := hjt {}
      have hna : s.snapshot j (.var a) = some na := Option.map_eq_some_iff.mpr ⟨_, hna, rfl⟩
      have hnt : s.snapshot j t = some nt := Option.map_eq_some_iff.mpr ⟨_, hnt, rfl⟩
      obtain ⟨k', hna', hnt'⟩ :=
        ((hs.snapshot (.refl (.var a)) hna).and (hs.snapshot htu hnt)).exists_fuel
      obtain ⟨s1', hfail', _⟩ := adopt_fails hl' hmem' hna' hnt'
      refine .inl ⟨_, ⟨k', hfail', by simp⟩, .hidden hback ⟨"t" ++ toString a, nt,
        s1'.poison a, ?_, not_shows hs.wellFormed ht hnt hmem⟩⟩
      rw [snapshot_unbound hca hna, hra]
    · obtain ⟨s1', h1', heq'⟩ := adopt_of_not_mem hl' rank' become' hmem'
      have hs1 := hs.relinked h1 h1'
      have hal := h1.alike hl
      obtain ⟨hf, hal'⟩ := Store.lowerRanks_reach hs1.wellFormed.toFormed t rank
      refine .inl ⟨_, ⟨0, heq' 0, by simp⟩, .unified (hbecome _ _ hf (hal.trans hal') ?_)⟩
      refine hs1.lowerRanks_reach ?_ ?_ rank rank'
      · rw [h1.size hl]; exact ht
      · rw [h1'.size hl']; exact hu

/-! ## The rules -/

def Simulated (back : Bool) (c : Call) (s : Store) (o : Outcome) : Prop :=
  ∀ c' s', SimilarCalls s.aliases back c c' → c'.Fits s'.size → Alongside back s s' →
    Mirrored back (Completes c' s') o

abbrev Follows (g : Guard) (back : Bool) : Call → Store → Outcome → Prop :=
  Careful g (Simulated back)

abbrev Concludes : Call → Store → Outcome → Prop := Careful .any Completes

section Rules

variable {g : Guard} (hback : back = true → g.Untied) {c c' : Call}

theorem Careful.follow (h : Follows g back c s o) (hc : SimilarCalls s.aliases back c c')
    (hfit : c'.Fits s'.size) (hs : Alongside back s s') : Mirrored back (Concludes c' s') o := by
  refine (h.ends c' s' hc hfit hs).imp fun o' hc' => ⟨hc', hs.wellFormed', hfit, ?_⟩
  cases o' with
  | outOfFuel => trivial
  | _ =>
    obtain ⟨n, hrun⟩ := hc'.runs (by simp)
    exact hrun.after hs.wellFormed' hfit

include hback

theorem Alongside.next (hs : Alongside back s s') (h : Steps g false s s1)
    (h' : Steps .any false s' s1') (hsim : Similar back s1 s1') : Alongside back s1 s1' where
  toSimilar := hsim
  wellFormed := h.wellFormed hs.wellFormed
  wellFormed' := h'.wellFormed hs.wellFormed'
  grounded hb := h.grounded (hback hb) hs.wellFormed (hs.grounded hb)

theorem each_similar {ps ps' : List (Ty × Ty)} (h : Each (Follows g back) ps s o)
    (hs : Alongside back s s') (hps : List.Forall₂ (fun p p' => p.1.Similar s.aliases back p'.1 ∧
      p.2.Similar s.aliases back p'.2) ps ps')
    (hfits : ∀ q ∈ ps', q.1.Fits s'.size ∧ q.2.Fits s'.size) :
    Mirrored back (Each Concludes ps' s') o := by
  induction h generalizing ps' s' with
  | nil => cases hps; exact .inl ⟨_, .nil, .unified hs.toSimilar⟩
  | @cons l r ps s s1 o h _ ih =>
    cases hps with
    | cons hp hps =>
      refine (h.follow (.types hp.1 hp.2) (hfits _ List.mem_cons_self) hs).andThen
        (fun m s1' hc => ⟨s1', .failed hc⟩) fun s1' hc hsim => ?_
      have hsteps : Steps g false s s1 := h.after
      have hsteps' : Steps .any false s' s1' := hc.after
      have hle := hsteps'.size_le hs.wellFormed'
      refine (ih (hs.next hback hsteps hsteps' hsim) (by rw [hsteps.aliases_eq]; exact hps)
        fun q hq => ?_).imp fun o' => .cons hc
      obtain ⟨h1, h2⟩ := hfits q (List.mem_cons_of_mem _ hq)
      exact ⟨h1.mono hle, h2.mono hle⟩
  | failed h =>
    cases hps with
    | cons hp hps =>
      exact (h.follow (.types hp.1 hp.2) (hfits _ List.mem_cons_self) hs).failed
        fun m s1' hc => ⟨s1', .failed hc, id⟩

omit hback in
theorem Alongside.adopt_link (hs : Alongside back s s') (ha : a < s.size) (hb : b < s.size)
    (hra : s.root a = a) (hrb : s.root b = b) (hab : a ≠ b) (hcb : s.content b = .bound t)
    (hcb' : s'.content b = .bound u) (htu : t.Similar s.aliases back u)
    (hca : s.content a = .unbound rank hint) (hadopt : s.adopt k a rank t (fun s => s.link a b) = o)
    (ho : o ≠ .outOfFuel) (rank' : Rank) :
    Mirrored back (fun o' => ∃ k', s'.adopt k' a rank' u (fun s => s.link a b) = o' ∧
      o' ≠ .outOfFuel) o := by
  refine hs.adopt ha hra (hs.wellFormed.fits b t (kind_eq_bound.mpr hcb))
    (hs.wellFormed'.fits b u (kind_eq_bound.mpr hcb')) htu (fun s1 s1' hf hal hsim => ?_) hca
    hadopt ho rank'
  refine hsim.link hf ?_ ?_ ?_ ?_ hab
  · rw [hal.size]; exact ha
  · rw [hal.size]; exact hb
  · rw [hal.root]; exact hra
  · rw [hal.root]; exact hrb

theorem join_similar {s2 s3 : Store} {a1 b1 : Var} (h : Follows g back (.terms l r) s (.unified s1))
    (hs : Alongside back s s') (hab : a ≠ b) (ha : a < s.size) (hb : b < s.size)
    (hca : s.content a = .bound l) (hcb : s.content b = .bound r) (hfa : s1.find a = (a1, s2))
    (hfb : s2.find b = (b1, s3)) : Mirrored back (RootsRule .any Concludes a b s')
      (.unified (if a1 = b1 then s3 else s3.link a1 b1)) := by
  obtain ⟨l', hca', hll'⟩ := hs.bound hca
  obtain ⟨r', hcb', hrr'⟩ := hs.bound hcb
  have hfit' : (Call.terms l' r').Fits s'.size := ⟨hs.wellFormed'.fits a l' (kind_eq_bound.mpr hca'),
    hs.wellFormed'.fits b r' (kind_eq_bound.mpr hcb')⟩
  refine (h.follow (.terms hll' hrr') hfit' hs).andThen
    (fun m s1' hc => ⟨_, .joinFailed hab hca' hcb' hc⟩) fun s1' hc hsim => ?_
  have hsteps : Steps g false s s1 := h.after
  have hs1 := hs.next hback hsteps hc.after hsim
  have hle := hsteps.size_le hs.wellFormed
  obtain ⟨s2', s3', hfa', hfb', _, hs3⟩ := hs1.find_both hfa hfb
  obtain ⟨-, -, hf, -, -, ⟨ha1, hb1⟩, hra, hrb⟩ := Store.find_both hs1.wellFormed.forest
    (Nat.lt_of_lt_of_le ha hle) (Nat.lt_of_lt_of_le hb hle) hfa hfb
  refine .inl ⟨_, .join hab hca' hcb' hc hfa' hfb' fun _ => trivial, .unified ?_⟩
  split
  · exact hs3.toSimilar
  · rename_i hne
    exact hs3.link hf ha1 hb1 hra hrb hne

omit hback in
theorem joinFailed_similar {m : Mismatch} (h : Follows g back (.terms l r) s (.failed m s1))
    (hs : Alongside back s s') (hab : a ≠ b) (ha : a < s.size) (hb : b < s.size)
    (hca : s.content a = .bound l) (hcb : s.content b = .bound r) :
    Mirrored back (RootsRule .any Concludes a b s') (.failed m ((s1.poison a).poison b)) := by
  obtain ⟨l', hca', hll'⟩ := hs.bound hca
  obtain ⟨r', hcb', hrr'⟩ := hs.bound hcb
  have hfit' : (Call.terms l' r').Fits s'.size := ⟨hs.wellFormed'.fits a l' (kind_eq_bound.mpr hca'),
    hs.wellFormed'.fits b r' (kind_eq_bound.mpr hcb')⟩
  have hsteps : Steps g true s s1 := h.after
  have hw1 := hsteps.wellFormed hs.wellFormed
  have hle := hsteps.size_le hs.wellFormed
  have ha1 := Nat.lt_of_lt_of_le ha hle
  refine (h.follow (.terms hll' hrr') hfit' hs).failed fun m s1' hc =>
    ⟨_, .joinFailed hab hca' hcb' hc, fun hs1 => ?_⟩
  refine (hs1.poison hw1.forest ha1).poison (poison_formed hw1.toFormed ha1).forest ?_
  rw [poison_size hw1.forest ha1]
  exact Nat.lt_of_lt_of_le hb hle

theorem roots_similar (h : RootsRule g (Follows g back) a b s o) (hs : Alongside back s s')
    (ha : a < s.size) (hb : b < s.size) (hra : s.root a = a) (hrb : s.root b = b) :
    Mirrored back (RootsRule .any Concludes a b s') o := by
  have hf := hs.wellFormed.forest
  cases h with
  | same hab => exact .inl ⟨_, .same hab, .unified hs.toSimilar⟩
  | poisonedLeft hab hc =>
    exact .inl ⟨_, .poisonedLeft hab (hs.poisoned_iff.mpr hc),
      .unified (hs.link hf hb ha hrb hra (Ne.symm hab))⟩
  | poisonedRight hab hna hc =>
    exact .inl ⟨_, .poisonedRight hab (fun hc => hna (hs.poisoned_iff.mp hc))
      (hs.poisoned_iff.mpr hc), .unified (hs.link hf ha hb hra hrb hab)⟩
  | merge hab hca hcb =>
    obtain ⟨_, hca'⟩ := hs.unbound hca
    obtain ⟨_, hcb'⟩ := hs.unbound hcb
    refine .inl ⟨_, .merge hab hca' hcb', .unified ?_⟩
    obtain ⟨hf', hro, _⟩ := link_view hf ha hb hra hrb hab
    refine (hs.link hf ha hb hra hrb hab).put hf' ?_ ?_ (.unbound _ _ _)
    · rw [link_size]; exact hb
    · rw [hro, hrb, if_neg (Ne.symm hab)]
  | adoptLeft hab hca hcb hadopt ho =>
    obtain ⟨rank', hca'⟩ := hs.unbound hca
    obtain ⟨u, hcb', htu⟩ := hs.bound hcb
    refine (hs.adopt_link ha hb hra hrb hab hcb hcb' htu hca hadopt ho rank').imp ?_
    rintro o' ⟨k', hadopt', ho'⟩
    exact .adoptLeft hab hca' hcb' hadopt' ho'
  | adoptRight hab hca hcb hadopt ho =>
    obtain ⟨u, hca', htu⟩ := hs.bound hca
    obtain ⟨rank', hcb'⟩ := hs.unbound hcb
    refine (hs.adopt_link hb ha hrb hra (Ne.symm hab) hca hca' htu hcb hadopt ho rank').imp ?_
    rintro o' ⟨k', hadopt', ho'⟩
    exact .adoptRight hab hca' hcb' hadopt' ho'
  | join hab hca hcb h hfa hfb _ => exact join_similar hback h hs hab ha hb hca hcb hfa hfb
  | joinFailed hab hca hcb h => exact joinFailed_similar h hs hab ha hb hca hcb

omit hback in
theorem SameHead.clash_eq {R : Ty → Ty → Prop} (hl : l.SameHead R l') (hr : r.SameHead R r') :
    clash l' r' = clash l r := by
  cases hl <;> cases hr <;> try rfl
  rename_i hargs _ _ _ hargs'
  simp only [clash, hargs.length_eq, hargs'.length_eq]

omit hback in
/-- Two records: the rows that are gathered are similar. -/
theorem records_similar {fs gs fs' gs' : List (String × Ty)} {ext ext' : Option Var} {s2 : Store}
    (hL : s.gather k fs ext = some (rowL, s1)) (hR : s1.gather k gs ext' = some (rowR, s2))
    (h : Follows g back (.rows rowL rowR (.record fs ext) (.record gs ext')) s2 o)
    (hs : Alongside back s s') (hfs : Assoc.Related (Ty.Similar s.aliases back) fs fs')
    (hgs : Assoc.Related (Ty.Similar s.aliases back) gs gs')
    (hfit : (Ty.record fs' ext).Fits s'.size) (hfit' : (Ty.record gs' ext').Fits s'.size) :
    Mirrored back (HeadsRule Concludes (.record fs' ext) (.record gs' ext') s') o := by
  have hw' := hs.wellFormed'
  obtain ⟨hrowL, hrowR, h2⟩ := gather_spec hs.wellFormed.forest.linksEnd hL hR
  obtain ⟨rowL', hsimL, hrowL'⟩ := hs.row hrowL hfs
  obtain ⟨rowR', hsimR, hrowR'⟩ := hs.row hrowR hgs
  obtain ⟨k', hrowL', hrowR'⟩ := (hrowL'.and hrowR').exists_fuel
  obtain ⟨s1', s2', hL', hR', h2'⟩ := exists_gather hs.forest.linksEnd hrowL' hrowR'
  have hover {fs ext k row} (hrow : s'.row k fs ext = some row)
      (hfit : (Ty.record fs ext).Fits s'.size) : (rowType row).Fits s'.size :=
    row_over hw'.usable (fun _ => hw'.forest.root_lt) (fun v t _ hk => hw'.fits v t hk) hrow hfit
  have hfits : (Call.rows rowL' rowR' (.record fs' ext) (.record gs' ext')).Fits s2'.size := by
    rw [h2'.size hs.forest.linksEnd]
    exact ⟨hover hrowL' hfit, hover hrowR' hfit', hfit, hfit'⟩
  refine (h.follow ?_ hfits (hs.relinked h2 h2')).imp fun o' => .record hL' hR'
  rw [h2.aliases]
  exact .rows hsimL hsimR (similar_record hfs ext) (similar_record hgs ext')

theorem heads_similar (h : HeadsRule (Follows g back) l r s o) (hs : Alongside back s s')
    (hl : l.SameHead (Ty.Similar s.aliases back) l')
    (hr : r.SameHead (Ty.Similar s.aliases back) r') (hll' : l.Similar s.aliases back l')
    (hrr' : r.Similar s.aliases back r') (hfit : l'.Fits s'.size) (hfit' : r'.Fits s'.size) :
    Mirrored back (HeadsRule Concludes l' r' s') o := by
  have hfits := operands_over hfit hfit'
  cases h with
  | var hvar h =>
    refine (h.follow (.types hll' hrr') ⟨hfit, hfit'⟩ hs).imp fun o' hc => .var ?_ hc
    rwa [← hll'.isVar_eq, ← hrr'.isVar_eq]
  | func h =>
    cases hl with
    | func ha hb =>
      cases hr with
      | func hc hd =>
        have hps := forall₂_zip (.cons ha (.cons hb .nil)) (.cons hc (.cons hd .nil))
        exact (each_similar hback h hs hps hfits).imp fun o' h' => .func h'
  | app hlen h =>
    cases hl with
    | app hargs =>
      cases hr with
      | app hargs' =>
        rw [hargs.length_eq, hargs'.length_eq] at hlen
        rw [operands, if_pos ⟨rfl, hlen⟩] at hfits
        exact (each_similar hback h hs (forall₂_zip hargs hargs') hfits).imp fun o' h' =>
          .app hlen h'
  | record hL hR h =>
    cases hl with
    | record hfs =>
      cases hr with
      | record hgs => exact records_similar hL hR h hs hfs hgs hfit hfit'
  | clash hclash h ho =>
    obtain ⟨k', o', h', ho', hsim⟩ :=
      (hs.failWith hs.wellFormed.forest hll' hrr' h ho).exists_fuel
    exact .inl ⟨o', .clash (by rw [SameHead.clash_eq hl hr]; exact hclash) h' ho', hsim⟩

omit hback in
theorem unmatched_similar (hL : SimilarRows table back rowL rowL') (hR : SimilarRows table back rowR rowR') :
    Option.Rel (fun p p' => Assoc.keys p.1 = Assoc.keys p'.1 ∧ Assoc.keys p.2 = Assoc.keys p'.2)
      (unmatched rowL rowR) (unmatched rowL' rowR') := by
  have hleft := (hL.fields.without hR.fields.keys_eq).keys_eq
  have hright := (hR.fields.without hL.fields.keys_eq).keys_eq
  have hempty : ∀ {fs fs' : List (String × Ty)}, Assoc.keys fs = Assoc.keys fs' →
      fs.isEmpty = fs'.isEmpty := by
    intro fs fs' h
    rw [Assoc.keys, Assoc.keys] at h
    rw [← List.isEmpty_map (f := Prod.fst), h, List.isEmpty_map]
  simp only [unmatched, hL.tail, hR.tail, ← hempty hleft, ← hempty hright]
  split <;> (try split) <;> (try split) <;> constructor <;>
    exact ⟨by first | exact hleft | rfl, by first | exact hright | rfl⟩

omit hback in
theorem Similar.tailRank (hs : Similar back s s') {w : Var} :
    (s'.tailRank v w).isSome = (s.tailRank v w).isSome := by
  have hv := hs.isSome_rank? v
  have hw := hs.isSome_rank? w
  rw [Store.tailRank, Store.tailRank]
  generalize s.rank? v = a, s'.rank? v = a' at hv
  generalize s.rank? w = b, s'.rank? w = b' at hw
  cases a <;> cases a' <;> cases b <;> cases b' <;> simp_all

omit hback in
theorem Alongside.restRank (hs : Alongside back s s') {w : Var} {x : Option Rank}
    (h : s.restRank v w = (x, s1)) : ∃ x' s1', s'.restRank v w = (x', s1') ∧ s1'.tailRank v w = x' ∧
      x'.isSome = x.isSome ∧ Relinked s' s1' ∧ Alongside back s1 s1' := by
  obtain ⟨x', s1', h'⟩ : ∃ x' s1', s'.restRank v w = (x', s1') := ⟨_, _, rfl⟩
  obtain ⟨rfl, h1⟩ := restRank_spec h
  obtain ⟨rfl, h1'⟩ := restRank_spec h'
  have hs1 := hs.relinked h1 h1'
  exact ⟨_, s1', h', rfl, hs1.tailRank, h1', hs1⟩

omit hback in
theorem ends_similar (h : EndsRule g (Follows g back) rowL rowR l r s o) (hs : Alongside back s s')
    (hL : SimilarRows s.aliases back rowL rowL') (hR : SimilarRows s.aliases back rowR rowR')
    (hl : l.Similar s.aliases back l') (hr : r.Similar s.aliases back r')
    (hfit : (Call.rows rowL' rowR' l' r').Fits s'.size) :
    Mirrored back (EndsRule .any Concludes rowL' rowR' l' r' s') o := by
  have hun := unmatched_similar hL hR
  have hleft := hL.fields.without hR.fields.keys_eq
  have hright := hR.fields.without hL.fields.keys_eq
  have hnone : unmatched rowL rowR = none → unmatched rowL' rowR' = none := by
    intro h
    rw [h] at hun
    cases hun' : unmatched rowL' rowR' with
    | none => rfl
    | some p => rw [hun'] at hun; cases hun
  cases h with
  | spoiled htail _ =>
    exact .inl ⟨_, .spoiled (by rwa [hL.tail, hR.tail]) trivial, .unified hs.toSimilar⟩
  | mismatch hsome h ho =>
    rw [hsome] at hun
    cases hun' : unmatched rowL' rowR' with
    | none => rw [hun'] at hun; cases hun
    | some p =>
      rw [hun'] at hun
      cases hun with
      | some hkeys =>
        rw [Store.fieldsMismatch, hkeys.1, hkeys.2] at h
        obtain ⟨k', o', h', ho', hsim⟩ := (hs.failWith hs.wellFormed.forest hl hr h ho).exists_fuel
        exact .inl ⟨o', .mismatch hun' h' ho', hsim⟩
  | matched hun htail =>
    exact .inl ⟨_, .matched (hnone hun) (by rwa [hL.tail, hR.tail]), .unified hs.toSimilar⟩
  | openLeft hun hv hw h =>
    have hun' := hnone hun
    have hv' := hL.tail.trans hv
    have hw' := hR.tail.trans hw
    have hposed := (Poses.tail (.openLeft hun' hv' hw')).fits hs.wellFormed' hfit
    exact (h.follow (.var .left _ (similar_record hright none)) hposed hs).imp fun o' =>
      .openLeft hun' hv' hw'
  | openRight hun hv hw h =>
    have hun' := hnone hun
    have hv' := hL.tail.trans hv
    have hw' := hR.tail.trans hw
    have hposed := (Poses.tail (.openRight hun' hv' hw')).fits hs.wellFormed' hfit
    exact (h.follow (.var .right _ (similar_record hleft none)) hposed hs).imp fun o' =>
      .openRight hun' hv' hw'
  | taken hvw hv hw hrank _ =>
    obtain ⟨x', s1', hrank', -, hsome, -, hs1⟩ := hs.restRank hrank
    obtain rfl : x' = none := by simpa using hsome
    exact .inl ⟨_, .taken hvw (hL.tail.trans hv) (hR.tail.trans hw) hrank' trivial,
      .unified hs1.toSimilar⟩
  | openBoth hvw hv hw hrank h =>
    obtain ⟨x', s1', hrank', htail, hsome, h1', hs1⟩ := hs.restRank hrank
    obtain ⟨rank', rfl⟩ := Option.isSome_iff_exists.mp hsome
    have hv' := hL.tail.trans hv
    have hw' := hR.tail.trans hw
    rw [← h1'.size hs.forest.linksEnd] at hfit
    have hposed := (Poses.tail (.openBoth hvw hv' hw' htail)).fits hs1.wellFormed' hfit
    rw [← (restRank_spec hrank).2.aliases] at hleft hright
    exact (h.follow (.tails _ _ _ rank' hleft hright) hposed hs1).imp fun o' =>
      .openBoth hvw hv' hw' hrank'

omit hback in
theorem bind_similar {side : Side} (hfind : s.find v = (a, s1))
    (hcon : s1.content a = .unbound rank hint)
    (hadopt : s1.adopt k a rank t (fun s => s.put a (.bound t)) = o) (ho : o ≠ .outOfFuel)
    (htu : t.Similar s.aliases back u) (hfit : (Call.var side v t).Fits s.size)
    (hfit' : u.Fits s'.size) (hs : Alongside back s s') :
    Mirrored back (Rule .any Concludes (.var side v u) s') o := by
  obtain ⟨s1', hfind', h', hs1⟩ := hs.find hfind
  obtain ⟨rfl, hf, hal, _⟩ := find_spec hs.wellFormed.forest hfit.1 hfind
  obtain ⟨rank', hcon'⟩ := hs1.unbound hcon
  have hlt : s.root v < s1.size := by rw [hal.size]; exact hs.wellFormed.forest.root_lt hfit.1
  have hroot : s1.root (s.root v) = s.root v := by
    rw [hal.root]; exact hs.wellFormed.forest.root_root v
  have ht : t.Fits s1.size := by rw [hal.size]; exact hfit.2
  have hu : u.Fits s1'.size := by rw [h'.size hs.forest.linksEnd]; exact hfit'
  rw [← hal.aliases] at htu
  have hput : ∀ s2 s2', s2.Forest → Alike s1 s2 → Similar back s2 s2' →
      Similar back (s2.put (s.root v) (.bound t)) (s2'.put (s.root v) (.bound u)) := by
    intro s2 s2' hf2 hal2 hsim
    refine hsim.put hf2 ?_ ?_ (.bound ?_)
    · rw [hal2.size]; exact hlt
    · rw [hal2.root]; exact hroot
    · rw [hal2.aliases]; exact htu
  refine (hs1.adopt hlt hroot ht hu htu hput hcon hadopt ho rank').imp ?_
  rintro o' ⟨k', hadopt', ho'⟩
  exact .bind hfind' hcon' hadopt' ho'

omit hback in
theorem bound_similar {side : Side} {t' : Ty} (hfind : s.find v = (a, s1))
    (hcon : s1.content a = .bound u) (h : Follows g back (.against side u t) s1 o)
    (htt' : t.Similar s.aliases back t') (hfit : (Call.var side v t).Fits s.size)
    (hfit' : (Call.var side v t').Fits s'.size) (hs : Alongside back s s') :
    Mirrored back (Rule .any Concludes (.var side v t') s') (o.onFailure fun s => s.poison a) := by
  obtain ⟨s1', hfind', h', hs1⟩ := hs.find hfind
  obtain ⟨rfl, hf, hal, _⟩ := find_spec hs.wellFormed.forest hfit.1 hfind
  obtain ⟨u', hcon', huu'⟩ := hs1.bound hcon
  rw [← hal.aliases] at htt'
  have hcalls : SimilarCalls s1.aliases back (.against side u t) (.against side u' t') := by
    cases side with
    | left => exact .terms huu' htt'
    | right => exact .terms htt' huu'
  have hposed : (Call.against side u' t').Fits s1'.size := by
    rw [← h'.size hs.forest.linksEnd] at hfit'
    have hroot := Poses.rootVar.fits hs1.wellFormed' hfit'
    rw [hs1.root, hal.root] at hroot
    exact (Poses.bound hcon').fits hs1.wellFormed' hroot
  refine (h.follow hcalls hposed hs1).onFailure (fun o' => .bound hfind' hcon') ?_
  rintro m s2 s2' rfl hsim
  have hsteps : Steps g true s1 s2 := h.after
  refine hsim.poison (hsteps.wellFormed hs1.wellFormed).forest ?_
  refine Nat.lt_of_lt_of_le ?_ (hsteps.size_le hs1.wellFormed)
  rw [hal.size]
  exact hs.wellFormed.forest.root_lt hfit.1

theorem terms_similar (h : Rule g (Follows g back) (.terms l r) s o) (hs : Alongside back s s')
    (hll' : l.Similar s.aliases back l') (hrr' : r.Similar s.aliases back r')
    (hfit : (Call.terms l r).Fits s.size) (hfit' : (Call.terms l' r').Fits s'.size) :
    Mirrored back (Rule .any Concludes (.terms l' r') s') o := by
  have hf := hs.wellFormed.forest
  cases h with
  | stuckLeft hl h ho =>
    obtain ⟨hd, hsim, hl'⟩ := hll'.head hl
    rw [← hs.aliases] at hl'
    cases hsim with
    | stuck =>
      obtain ⟨k', hl', o', h', ho', hsim⟩ :=
        (hl'.and (hs.failWith hf (.refl _) (.refl _) h ho)).exists_fuel
      exact .inl ⟨o', .stuckLeft hl' h' ho', hsim⟩
  | stuckRight hl hr h ho =>
    obtain ⟨_, hsl, hl'⟩ := hll'.head hl
    obtain ⟨_, hsr, hr'⟩ := hrr'.head hr
    rw [← hs.aliases] at hl' hr'
    cases hsl with
    | settled _ =>
      cases hsr with
      | stuck =>
        obtain ⟨k', ⟨hl', hr'⟩, o', h', ho', hsim⟩ :=
          ((hl'.and hr').and (hs.failWith hf (.refl _) (.refl _) h ho)).exists_fuel
        exact .inl ⟨o', .stuckRight hl' hr' h' ho', hsim⟩
  | settled hl hr h =>
    obtain ⟨_, hsl, hl'⟩ := hll'.head hl
    obtain ⟨_, hsr, hr'⟩ := hrr'.head hr
    rw [← hs.aliases] at hl' hr'
    cases hsl with
    | settled hsl =>
      cases hsr with
      | settled hsr =>
        obtain ⟨k', hl', hr'⟩ := (hl'.and hr').exists_fuel
        have hu := hs.wellFormed.usable
        have hu' := hs.wellFormed'.usable
        exact (heads_similar hback h hs hsl hsr (hsl.similar (hu.head_settled hfit.1 hl).2)
          (hsr.similar (hu.head_settled hfit.2 hr).2) (hu'.head_settled hfit'.1 hl').1
          (hu'.head_settled hfit'.2 hr').1).imp fun _ => .settled hl' hr'

theorem rows_similar (h : Rule g (Follows g back) (.rows rowL rowR l r) s o)
    (hs : Alongside back s s') (hL : SimilarRows s.aliases back rowL rowL')
    (hR : SimilarRows s.aliases back rowR rowR') (hl : l.Similar s.aliases back l')
    (hr : r.Similar s.aliases back r') (hfit : (Call.rows rowL' rowR' l' r').Fits s'.size) :
    Mirrored back (Rule .any Concludes (.rows rowL' rowR' l' r') s') o := by
  have hshared := forall₂_shared hL.fields hR.fields
  have hfits := shared_over hfit.1 hfit.2.1
  cases h with
  | @rows _ _ _ _ _ s1 _ h hend =>
    refine (each_similar hback h hs hshared hfits).andThen
      (fun m s1' heach => ⟨s1', .rowsFailed heach⟩) fun s1' heach hsim => ?_
    have hsteps : Steps g false s s1 := h.after
    have hsteps' : Steps .any false s' s1' := heach.after
    rw [← hsteps.aliases_eq] at hL hR hl hr
    exact (ends_similar hend (hs.next hback hsteps hsteps' hsim) hL hR hl hr
      (hfit.mono (hsteps'.size_le hs.wellFormed'))).imp fun _ => .rows heach
  | rowsFailed h =>
    exact (each_similar hback h hs hshared hfits).failed fun m s1' heach =>
      ⟨s1', .rowsFailed heach, id⟩

theorem tails_similar {w : Var} {left right left' right' : List (String × Ty)} {rank' : Rank}
    (h : Rule g (Follows g back) (.tails v w rank left right) s o) (hs : Alongside back s s')
    (hleft : Assoc.Related (Ty.Similar s.aliases back) left left')
    (hright : Assoc.Related (Ty.Similar s.aliases back) right right')
    (hfit : (Call.tails v w rank' left' right').Fits s'.size) :
    Mirrored back (Rule .any Concludes (.tails v w rank' left' right') s') o := by
  have hs1 : Alongside back (s.fresh rank none).2 (s'.fresh rank' none).2 :=
    hs.next hback (.single (.fresh rank none)) (.single (.fresh rank' none))
      (hs.fresh hs.wellFormed.forest rank rank' none)
  obtain ⟨hfitL, hfitR⟩ := hfit.rest
  have hfresh : s'.fresh rank' none = (s.size, (s'.fresh rank' none).2) := by rw [← hs.size]; rfl
  rw [hs.size] at hfitL hfitR
  cases h with
  | @tails _ _ _ _ _ _ _ _ s2 _ hf h h' =>
    cases hf
    refine (h.follow (.var .left v (similar_record hright _)) hfitL hs1).andThen
      (fun m s2' hc => ⟨s2', .tailsFailed hfresh hc⟩) fun s2' hc hsim => ?_
    have hsteps : Steps g false (s.fresh rank none).2 s2 := h.after
    have hsteps' : Steps .any false (s'.fresh rank' none).2 s2' := hc.after
    have hcall : SimilarCalls s2.aliases back (.var .right w (.record left (some s.size)))
        (.var .right w (.record left' (some s.size))) := by
      rw [hsteps.aliases_eq]
      exact .var .right w (similar_record hleft _)
    exact (h'.follow hcall (hfitR.mono (hsteps'.size_le hs1.wellFormed'))
      (hs1.next hback hsteps hsteps' hsim)).imp fun _ => .tails hfresh hc
  | tailsFailed hf h =>
    cases hf
    exact (h.follow (.var .left v (similar_record hright _)) hfitL hs1).failed fun m s2' hc =>
      ⟨s2', .tailsFailed hfresh hc, id⟩

theorem rule_similar (hfit : c.Fits s.size) (h : Rule g (Follows g back) c s o) :
    Simulated back c s o := by
  intro c' s' hcall hfit' hs
  have hw' := hs.wellFormed'
  suffices hrule : Mirrored back (Rule .any Concludes c' s') o from
    hrule.imp fun _ h => .of_rule (h.mono fun _ _ _ hc => hc.ends)
  cases hcall with
  | types hl hr =>
    cases h with
    | varVar h =>
      cases hl.eq_var
      cases hr.eq_var
      exact (h.follow (.vars _ _) (Poses.varVar.fits hw' hfit') hs).imp fun _ => .varVar
    | varLeft ht h =>
      cases hl.eq_var
      have ht' := hr.isVar_eq.symm.trans ht
      exact (h.follow (.var .left _ hr) ((Poses.varLeft ht').fits hw' hfit') hs).imp fun _ =>
        .varLeft ht'
    | varRight ht h =>
      cases hr.eq_var
      have ht' := hl.isVar_eq.symm.trans ht
      exact (h.follow (.var .right _ hl) ((Poses.varRight ht').fits hw' hfit') hs).imp fun _ =>
        .varRight ht'
    | noVar htl htr h =>
      exact (h.follow (.terms hl hr) hfit' hs).imp fun _ =>
        .noVar (hl.isVar_eq.symm.trans htl) (hr.isVar_eq.symm.trans htr)
  | vars v w =>
    cases h with
    | vars hv hw h =>
      obtain ⟨s1', s2', hv', hw', -, hs2⟩ := hs.find_both hv hw
      obtain ⟨-, -, -, -, -, ⟨ha, hb⟩, hra, hrb⟩ :=
        Store.find_both hs.wellFormed.forest hfit.1 hfit.2 hv hw
      exact (roots_similar hback h hs2 ha hb hra hrb).imp fun _ => .vars hv' hw'
  | var side v ht =>
    cases h with
    | poisoned hv hcon =>
      obtain ⟨s1', hv', -, hs1⟩ := hs.find hv
      exact .inl ⟨_, .poisoned hv' (hs1.poisoned_iff.mpr hcon), .unified hs1.toSimilar⟩
    | bind hv hcon hadopt ho => exact bind_similar hv hcon hadopt ho ht hfit hfit'.2 hs
    | bound hv hcon h => exact bound_similar hv hcon h ht hfit hfit' hs
  | terms hl hr => exact terms_similar hback h hs hl hr hfit hfit'
  | rows hL hR hl hr => exact rows_similar hback h hs hL hR hl hr hfit'
  | tails v w rank rank' hleft hright => exact tails_similar hback h hs hleft hright hfit'

theorem Runs.similar {n : Nat} (h : Runs g n c s o) (hw : s.WellFormed) (hfit : c.Fits s.size) :
    Simulated back c s o :=
  h.rule_induction (fun _ _ _ _ hfit hrule => rule_similar hback hfit hrule) hw hfit

end Rules

/-! ## Expanding all aliases -/

/-- Unless the occurs check refuses two types for a variable that the type in its error does not
show, whether they can be unified does not depend on their aliases being expanded, and neither
does what a variable stands for afterwards. No alias expanded may stand for a variable.

The call about the types as they are written ends if the call about the expanded types does, where
no class leads back to itself and the second call closes no circle. -/
theorem unify_unfolded_iff {env : Environment} {table : AliasTable} {compress : Bool}
    (ho : env.Ordered) (htable : env.aliasTable = .ok table)
    (hs : History .any (fun _ => True) false table compress s) {l r l' r' : Ty}
    (hl : l.Fits s.size) (hr : r.Fits s.size)
    (hll' : l.Unfolds table (fun t => t.isVar = false) l')
    (hrr' : r.Unfolds table (fun t => t.isVar = false) r') :
    (∀ n o, unify n l r s = o → o ≠ .outOfFuel →
      (∀ x ty s', o = .failed (.occurs (.var x) ty) s' → ty.Shows x) →
      ((∃ s1, o = .unified s1) ↔ ∃ n' s2, unify n' l' r' s = .unified s2) ∧
        ∀ s1 n' s2, o = .unified s1 → unify n' l' r' s = .unified s2 →
          s2.size = s1.size ∧ ∀ v m, EnoughFuel (fun k => s1.snapshot k (.var v) = some m) ↔
            EnoughFuel fun k => s2.snapshot k (.var v) = some m) ∧
    ∀ n' o', unify n' l' r' s = o' → o' ≠ .outOfFuel →
      (∀ x ty s', o' = .failed (.occurs (.var x) ty) s' → ty.Shows x) → s.Acyclic →
      (Call.types l' r').Keeps .untied n' s → ∃ n o, unify n l r s = o ∧ o ≠ .outOfFuel := by
  have hu := Environment.aliasTable_usable ho htable
  obtain ⟨hw, hsteps⟩ := hs.steps hu
  have hal : s.aliases = table := hsteps.aliases_eq
  rw [← hal] at hll' hrr'
  have hsiml : l.Similar s.aliases false l' := .of_unfolds hll'
  have hsimr : r.Similar s.aliases false r' := .of_unfolds hrr'
  have hfit : (Call.types l r).Fits s.size := ⟨hl, hr⟩
  have hfit' : (Call.types l' r').Fits s.size :=
    ⟨hsiml.over_right hw.usable hl, hsimr.over_right hw.usable hr⟩
  refine ⟨fun n o hrun hfuel hshown => ?_, fun n' o' hrun hfuel hshown hac hkeeps => ?_⟩
  · have hruns : Runs .any n (.types l r) s o := runs_of_ran ⟨hrun, hfuel⟩
    have hmirror : ∃ o', Completes (.types l' r') s o' ∧ SimilarOutcomes false o o' := by
      have hsim : Simulated false (.types l r) s o := hruns.similar Bool.noConfusion hw hfit
      rcases hsim _ s (.types hsiml hsimr) hfit' ⟨.refl hw.forest, hw, hw, Bool.noConfusion⟩ with
        h | ⟨x, ty, s1, rfl, hx⟩
      · exact h
      · exact absurd (hshown x ty s1 rfl) hx
    obtain ⟨o', hc, hsim⟩ := hmirror
    refine ⟨⟨?_, ?_⟩, ?_⟩
    · rintro ⟨s1, rfl⟩
      cases hsim with
      | @unified _ s2 _ =>
        obtain ⟨k, hk⟩ := EnoughFuel.exists_fuel hc
        exact ⟨k, s2, hk⟩
      | hidden hback => cases hback
    · rintro ⟨n', s2, h⟩
      cases hc.eq_of_run h (by simp)
      cases hsim with
      | unified => exact ⟨_, rfl⟩
      | hidden hback => cases hback
    · rintro s1 n' s2 rfl h
      cases hc.eq_of_run h (by simp)
      have hsteps1 : Steps .any false s s1 := hruns.after hw hfit
      have hf1 := (hsteps1.wellFormed hw).forest
      cases hsim with
      | unified hsim =>
        refine ⟨hsim.size, fun v m => ⟨fun hm => ?_, fun hm => ?_⟩⟩
        · obtain ⟨k, hk⟩ := hm.exists_fuel
          exact hsim.snapshot (.refl _) hk
        · obtain ⟨k, hk⟩ := hm.exists_fuel
          exact (hsim.symm hf1).snapshot (.refl _) hk
      | hidden hback => cases hback
  · have hruns : Runs .untied n' (.types l' r') s o' := hkeeps.runs hrun hfuel
    have hsim : Simulated true (.types l' r') s o' :=
      hruns.similar (fun _ _ _ _ h => h) hw hfit'
    rcases hsim _ s (.types hsiml.symm hsimr.symm) hfit
      ⟨.refl hw.forest, hw, hw, fun _ => acyclic_iff.mp hac⟩ with
      ⟨o, hc, hsim⟩ | ⟨x, ty, s1, rfl, hx⟩
    · obtain ⟨n, hn⟩ := EnoughFuel.exists_fuel hc
      refine ⟨n, o, hn, ?_⟩
      cases hsim with
      | unified => simp
      | failed => simp
      | hidden _ hhid =>
        obtain ⟨m, s1, rfl⟩ := hhid.exists_failed
        simp
    · exact absurd (hshown x ty s1 rfl) hx

/-- A list of boxes, and a list of an unbound variable. -/
theorem unify_unfolded_iff_boxes : ∃ s1,
    unify 12 (.app "List" [.app "Box" [.var 0]]) (.app "List" [.var 1]) (blank boxes.aliases 2) =
      .unified s1 ∧
    (∃ n' s2, unify n' (.app "List" [.record [("y", .var 0)] none]) (.app "List" [.var 1])
      (blank boxes.aliases 2) = .unified s2) ∧
    (∀ n' s2, unify n' (.app "List" [.record [("y", .var 0)] none]) (.app "List" [.var 1])
        (blank boxes.aliases 2) = .unified s2 →
      s2.size = s1.size ∧ ∀ v m, EnoughFuel (fun k => s1.snapshot k (.var v) = some m) ↔
        EnoughFuel fun k => s2.snapshot k (.var v) = some m) ∧
    ∃ n o, unify n (.app "List" [.app "Box" [.var 0]]) (.app "List" [.var 1])
      (blank boxes.aliases 2) = o ∧ o ≠ .outOfFuel := by
  have hsize : (blank boxes.aliases 2).size = 2 := (blank_view _ 2).2.1
  have hvar : ∀ v, v < 2 → (Ty.var v).Over (· < (blank boxes.aliases 2).size) := fun v hv => by
    rw [hsize]; exact Ty.over_var.mpr hv
  have hbox : (Ty.app "Box" [.var 0]).Unfolds boxes.aliases (fun t => t.isVar = false)
      (.record [("y", .var 0)] none) := by
    refine .expanded rfl rfl (.record rfl fun k t t' hmem => ?_)
    obtain ⟨⟨rfl, rfl⟩, _, rfl⟩ := by simpa using hmem
    exact .var 0
  have hlist : ∀ {t u : Ty}, t.Unfolds boxes.aliases (fun t => t.isVar = false) u →
      (Ty.app "List" [t]).Unfolds boxes.aliases (fun t => t.isVar = false) (.app "List" [u]) := by
    refine fun h => .app rfl rfl fun a a' hmem => ?_
    obtain ⟨rfl, rfl⟩ := by simpa using hmem
    exact h
  have hruns : Runs .untied 12 (.types (.app "List" [.record [("y", .var 0)] none])
      (.app "List" [.var 1])) (blank boxes.aliases 2) (.unified
        ⟨#[.root (.unbound 0 none), .root (.bound (.record [("y", .var 0)] none))],
          boxes.aliases, true⟩) :=
    Rule.noVar rfl rfl (Rule.settled (k := 1) rfl rfl (.app rfl (.cons
      (Rule.varRight rfl (Rule.bind (k := 1) rfl rfl rfl Outcome.noConfusion)) .nil)))
  obtain ⟨hiff, hends⟩ := unify_unfolded_iff boxes_ordered boxes_aliasTable
    (history_blank boxes.aliases 2)
    (Ty.over_app.mpr (by simpa using Ty.over_app.mpr (by simpa using hvar 0 (by decide))))
    (Ty.over_app.mpr (by simpa using hvar 1 (by decide))) (hlist hbox) (hlist (.var 1))
  obtain ⟨hiff, hsame⟩ := hiff 12 (.unified
    ⟨#[.root (.unbound 0 none), .root (.bound (.app "Box" [.var 0]))], boxes.aliases, true⟩)
    rfl Outcome.noConfusion (fun _ _ _ h => nomatch h)
  exact ⟨_, rfl, hiff.mp ⟨_, rfl⟩, fun n' s2 h => hsame _ n' s2 rfl h,
    hends 12 _ rfl Outcome.noConfusion (fun _ _ _ h => nomatch h) (acyclic_blank _ 2) hruns.keeps⟩

def identities : Environment := { aliases := [("Id", ⟨["a"], .var "a"⟩)] }

/-- A variable equals itself, but not the alias that stands for it: the occurs check finds the
variable in the application. And an extension that is bound to such an alias spoils its row, so
fields are not compared that would be if it were the variable. -/
theorem unify_sees_alias : identities.aliasTable = .ok identities.aliases ∧
    (Ty.app "Id" [.var 0]).Unfolds identities.aliases (fun _ => True) (.var 0) ∧
    unify 4 (.var 0) (.app "Id" [.var 0]) (blank identities.aliases 1) =
      .failed (.occurs (.var "t0") (.var "t0")) ((blank identities.aliases 1).poison 0) ∧
    unify 4 (.var 0) (.var 0) (blank identities.aliases 1) =
      .unified (blank identities.aliases 1) ∧
    ∃ s1 s2,
      unify 8 (.func (.var 0) (.record [] (some 0)))
        (.func (.app "Id" [.var 1]) (.record [("x", .int)] none)) (blank identities.aliases 2) =
          .unified s1 ∧
      unify 8 (.func (.var 0) (.record [] (some 0)))
        (.func (.var 1) (.record [("x", .int)] none)) (blank identities.aliases 2) =
          .unified s2 ∧
      s1.snapshot 4 (.var 1) = some (.var "t1") ∧
      s2.snapshot 4 (.var 1) = some (.record [("x", .app "Int" [])] none) :=
  ⟨rfl, .expanded rfl trivial (.var 0), rfl, rfl,
    ⟨#[.root (.bound (.app "Id" [.var 1])), .root (.unbound 0 none)], identities.aliases, true⟩,
    ⟨#[.link 1, .root (.bound (.record [("x", .int)] none))], identities.aliases, true⟩,
    rfl, rfl, rfl, rfl⟩

end Store
end TypeSolver
