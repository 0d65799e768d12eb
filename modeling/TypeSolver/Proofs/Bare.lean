import TypeSolver.Proofs.Compression
import TypeSolver.Proofs.FirstOrder

/-!
# TypeSolver.Proofs.Bare

Unification of first-order types looks at no alias. Where two such types are unified, in a store whose
bound classes stand for such types (`Plain`), they are unified in the same way in the store without
its table of aliases (`Call.run_bare`). So nothing has to be known of the table: it may have aliases
that expand to themselves.
-/

namespace TypeSolver

theorem Ty.FirstOrder.bare {table : AliasTable} {t : Ty} (h : t.FirstOrder table) :
    t.FirstOrder [] := by
  induction h with
  | var => exact .var
  | func _ _ iha ihr => exact .func iha ihr
  | app _ _ ih => exact .app rfl ih

namespace Store

def bare (s : Store) : Store := { s with aliases := [] }

variable {s s' : Store}

@[simp] theorem bare_size (s : Store) : s.bare.size = s.size := rfl

@[simp] theorem bare_root (s : Store) : s.bare.root = s.root := rfl

@[simp] theorem bare_content (s : Store) : s.bare.content = s.content := rfl

theorem Agrees.bare {t : Store} (h : Agrees s t) : Agrees s.bare t.bare :=
  ⟨h.size, rfl, h.root, h.content, h.linksEnd, h.linksEnd'⟩

theorem bare_visit (s : Store) (fuel : Nat) : s.bare.visit fuel = s.visit fuel := by
  induction fuel with
  | zero => rfl
  | succ fuel ih => funext seen v; rw [visit, visit, ih, bare_root, bare_content]

theorem bare_reach (s : Store) (t : Ty) : s.bare.reach t = s.reach t := by
  rw [reach, reachFrom, reach, reachFrom, bare_visit, bare_size]

theorem bare_lowerRank (s : Store) (rank : Rank) (v : Var) :
    (lowerRank rank s v).bare = lowerRank rank s.bare v := by
  rw [lowerRank, lowerRank, bare_content, bare_root]
  split
  · split <;> rfl
  · rfl

theorem bare_lowerRanks (s : Store) (vs : List Var) (rank : Rank) :
    (s.lowerRanks vs rank).bare = s.bare.lowerRanks vs rank := by
  induction vs generalizing s with
  | nil => rfl
  | cons v vs ih =>
    rw [lowerRanks, List.foldl_cons, ← lowerRanks, ih, bare_lowerRank]
    rfl

structure Plain (s : Store) : Prop where
  linksEnd : s.LinksEnd
  terms : ∀ v t, s.content v = .bound t → t.FirstOrder s.aliases

namespace Plain

variable (h : s.Plain)

include h

theorem put {r : Var} (hroot : s.root r = r) {c : Content}
    (hc : ∀ t, c = .bound t → t.FirstOrder s.aliases) : (s.put r c).Plain := by
  obtain ⟨he, _, hcon⟩ := h.linksEnd.put_view hroot c
  refine ⟨he, fun v t ht => ?_⟩
  rw [hcon] at ht
  split at ht
  · exact hc t ht
  · exact h.terms v t ht

theorem link {a b : Var} (hra : s.root a = a) (hrb : s.root b = b) (hab : a ≠ b) :
    (s.link a b).Plain := by
  obtain ⟨he, _, hcon⟩ := h.linksEnd.link_view hra hrb hab
  refine ⟨he, fun v t ht => ?_⟩
  rw [hcon] at ht
  split at ht
  · exact h.terms b t ht
  · exact h.terms v t ht

theorem fresh (rank : Rank) (hint : Option String) : (s.fresh rank hint).2.Plain := by
  obtain ⟨he, _, hcon⟩ := h.linksEnd.fresh_view rank hint
  refine ⟨he, fun v t ht => ?_⟩
  rw [hcon] at ht
  split at ht
  · cases ht
  · exact h.terms v t ht

theorem lowerRank (rank : Rank) (v : Var) :
    (lowerRank rank s v).Plain ∧ (Store.lowerRank rank s v).aliases = s.aliases := by
  rw [Store.lowerRank]
  split
  · split
    · exact ⟨h.put (h.linksEnd.root_root v) (by rintro t ⟨⟩), rfl⟩
    · exact ⟨h, rfl⟩
  · exact ⟨h, rfl⟩

theorem lowerRanks (vs : List Var) (rank : Rank) :
    (s.lowerRanks vs rank).Plain ∧ (s.lowerRanks vs rank).aliases = s.aliases := by
  induction vs generalizing s with
  | nil => exact ⟨h, rfl⟩
  | cons v vs ih =>
    obtain ⟨hv, hal⟩ := h.lowerRank rank v
    obtain ⟨hvs, hal'⟩ := ih hv
    exact ⟨hvs, hal'.trans hal⟩

/-- What is shown of a first-order type has no alias in it. -/
theorem readType_bare (fuel : Nat) {t : Ty} (ht : t.FirstOrder s.aliases) :
    s.bare.readType fuel t = s.readType fuel t := by
  induction fuel generalizing t with
  | zero => rfl
  | succ fuel ih =>
    cases ht with
    | @var v =>
      rw [readType, readType, bare_content]
      cases hc : s.content v with
      | bound u => exact ih (h.terms v u hc)
      | _ => rfl
    | func ha hr => rw [readType, readType, ih ha, ih hr]
    | @app name args hname hargs =>
      have hmap : ∀ as ⊆ args, as.mapM (s.bare.readType fuel) = as.mapM (s.readType fuel) := by
        intro as has
        induction as with
        | nil => rfl
        | cons a as ihas =>
          rw [List.mapM_cons, List.mapM_cons, ih (hargs a (has (by simp))),
            ihas fun x hx => has (by simp [hx])]
      rw [readType, readType, (Ty.FirstOrder.app hname hargs).expand_eq_none, hmap _ (by simp)]
      rfl

end Plain

theorem bare_lockstep (table : AliasTable) : Lockstep id (fun _ t => t.FirstOrder table) (· = ·)
    fun s t => Agrees t s.bare ∧ s.Plain ∧ s.aliases = table where
  mono _ hu := hu
  func hu := Ty.FirstOrder.func_iff.mp hu
  app hu := (Ty.FirstOrder.app_iff.mp hu).2
  record hu := by cases hu
  rebuild hu := by cases hu
  injective _ _ _ h := h
  content := by
    rintro s t v ⟨h, hs, rfl⟩ _
    exact ⟨by rw [h.content, bare_content, Content.renamed_id]; rfl, hs.terms v⟩
  head := by
    rintro s t u n ⟨h, hs, rfl⟩ hu
    cases n with
    | zero => exact ⟨rfl, by rintro _ ⟨⟩⟩
    | succ n =>
      rw [Ty.renamed_id, hu.head_eq, id, h.aliases, bare, hu.bare.head_eq]
      refine ⟨by simp, ?_⟩
      rintro _ ⟨⟩
      exact hu
  shown := by
    rintro s t u n ⟨h, hs, rfl⟩ hu
    rw [Ty.renamed_id, id, h.snapshot, snapshot, snapshot, hs.readType_bare n hu]
    cases (s.readType n u).run {} with
    | none => exact .none
    | some x => exact .some rfl
  linksEnd h := ⟨h.2.1.linksEnd, h.1.linksEnd⟩
  root h _ := ⟨by rw [h.1.root]; rfl, .var⟩
  relinked := by
    rintro s s' t t' ⟨h, hs, rfl⟩ hs' ht'
    have hl := hs.linksEnd
    refine ⟨(ht'.agrees h.linksEnd).trans (h.trans (hs'.agrees hl).symm.bare), ⟨hs'.linksEnd hl, ?_⟩,
      hs'.aliases⟩
    intro v u hu
    rw [hs'.aliases]
    exact hs.terms v u (by rwa [← hs'.content hl])
  put := by
    rintro s t r c ⟨h, hs, rfl⟩ _ hroot hc
    refine ⟨?_, hs.put hroot hc, rfl⟩
    rw [Content.renamed_id]
    exact h.put (by rwa [h.root]) c
  link := by
    rintro s t a b ⟨h, hs, rfl⟩ _ _ hra hrb hab
    refine ⟨⟨h.link (by rwa [h.root]) (by rwa [h.root]) hab, hs.link hra hrb hab, rfl⟩, ?_⟩
    rw [(hs.linksEnd.link_view hra hrb hab).2.1, hrb, if_neg fun h => hab h.1.symm]
  fresh := by
    rintro s t rank ⟨h, hs, rfl⟩
    exact ⟨⟨h.fresh rank none, hs.fresh rank none, rfl⟩, h.size.symm, .var⟩
  reach := by
    rintro s t u r ⟨h, _, _⟩ _ _
    rw [Ty.renamed_id, h.reach, bare_reach]
    rfl
  lowerRanks := by
    rintro s t u rank ⟨h, hs, rfl⟩ _
    have hlow := h.lowerRanks rank (s.reach u)
    rw [← bare_lowerRanks] at hlow
    rw [Ty.renamed_id, id, h.reach, bare_reach]
    exact ⟨⟨hlow, hs.lowerRanks _ rank⟩, Agrees.lowerRanks_view hs.linksEnd rank _⟩

theorem Call.run_bare {n : Nat} {c : Call} (h : c.run n s = .unified s') (hs : s.Plain)
    (hc : c.FirstOrder s.aliases) : ∃ t, c.run n s.bare = .unified t ∧ Agrees t s'.bare ∧ s'.Plain ∧
      s'.aliases = s.aliases := by
  have hall : c.All (Ty.FirstOrder s.aliases) := by
    cases c with
    | types => exact hc
    | terms => exact ⟨hc.1.1, hc.2.1⟩
    | vars => exact ⟨.var, .var⟩
    | var => exact ⟨.var, hc.1⟩
    | rows | tails => exact hc.elim
  have hrun := (bare_lockstep s.aliases).run ⟨(Agrees.refl hs.linksEnd).bare, hs, rfl⟩ n c hall
  rw [renamed_id, h] at hrun
  generalize c.run n s.bare = o at hrun
  cases hrun with
  | @unified _ t _ h => exact ⟨t, rfl, h⟩

theorem Call.FirstOrder.bare {table : AliasTable} {c : Call} (h : c.FirstOrder table) :
    c.FirstOrder [] := by
  cases c with
  | types => exact ⟨h.1.bare, h.2.bare⟩
  | vars => trivial
  | var => exact ⟨h.1.bare, h.2⟩
  | terms => exact ⟨⟨h.1.1.bare, h.1.2⟩, h.2.1.bare, h.2.2⟩
  | rows => exact h.elim
  | tails => exact h.elim

end Store
end TypeSolver
