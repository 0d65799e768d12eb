import TypeSolver.Proofs.Bare
import TypeSolver.Proofs.LeastRanks
import TypeSolver.Proofs.Lifecycle

/-!
# TypeSolver.Proofs.Minima

The rank of an unbound class is the least rank at which a variable was made that leads to the class.
A variable is made with its rank; each unification gives the unbound classes that are left the least
of the ranks of those that lead to them (`Distills`). So it stays true, after every sequence of calls
on first-order types, of the ranks at which the variables were made (`Minimal`).
-/

namespace TypeSolver
namespace Store

variable {s s' : Store} {ranks : List Rank} {table : AliasTable}

/-- The store was made by calls that succeeded, on first-order types. The variables were made with
these ranks, in order. -/
inductive Built (table : AliasTable) : List Rank → Store → Prop where
  | start (compress : Bool) : Built table [] { aliases := table, compress := compress }
  | fresh {ranks : List Rank} {s : Store} (rank : Rank) (hint : Option String) :
      Built table ranks s → Built table (ranks ++ [rank]) (s.fresh rank hint).2
  | unify {ranks : List Rank} {s s' : Store} {n : Nat} {l r : Ty} : Built table ranks s →
      l.Below s.size → r.Below s.size → l.FirstOrder table → r.FirstOrder table →
      unify n l r s = .unified s' → Built table ranks s'
  | unifyVars {ranks : List Rank} {s s' : Store} {n : Nat} {v w : Var} : Built table ranks s →
      v < s.size → w < s.size → unifyVars n v w s = .unified s' → Built table ranks s'

theorem fresh_edge (h : s.Forest) (rank : Rank) (hint : Option String) {v r : Var} :
    (s.fresh rank hint).2.Edge v r ↔ s.Edge v r := by
  obtain ⟨_, hro, hcon⟩ := fresh_view h rank hint
  simp only [Edge, kind_eq_bound, hcon, hro]
  refine exists_congr fun t => and_congr_left fun _ => ?_
  split
  · rename_i hv
    subst hv
    rw [(Forest.root_of_size_le le_rfl).2]
    simp
  · rfl

theorem fresh_reaches (h : s.Forest) (rank : Rank) (hint : Option String) {v r : Var} :
    (s.fresh rank hint).2.Reaches v r ↔ s.Reaches v r := by
  have hedge : (s.fresh rank hint).2.Edge = s.Edge :=
    funext fun v => funext fun r => propext (fresh_edge h rank hint)
  rw [Reaches, Reaches, hedge, (fresh_view h rank hint).2.1]

/-- Of these ranks, those of the variables that lead to the class of `u`. -/
def ranksBehind (s : Store) (ranks : List Rank) (u : Var) : Set Rank :=
  {k | ∃ v, ranks[v]? = some k ∧ s.Reaches v (s.root u)}

/-- An unbound class has the least of the ranks at which variables were made that lead to it. -/
structure Minimal (ranks : List Rank) (s : Store) : Prop where
  firstOrder : s.FirstOrder
  size : s.size = ranks.length
  least : ∀ u k, s.rank? u = some k → IsLeast (s.ranksBehind ranks u) k

namespace Minimal

theorem empty (compress : Bool) : Minimal [] { aliases := [], compress := compress } := by
  have husable : AliasTable.Usable [] :=
    ⟨by rintro _ _ ⟨⟩, ⟨fun _ => ⟨_, fun c hc => absurd hc (List.not_mem_nil)⟩⟩⟩
  have hstart : History .any (Ty.FirstOrder []) false [] compress _ := .start
  refine ⟨(hstart.firstOrder husable).1, rfl, fun u k hk => ?_⟩
  exact absurd (lt_of_rank? hk) (Nat.not_lt_zero u)

variable (h : Minimal ranks s)

include h

theorem lt_size {v : Var} {k : Rank} (hv : ranks[v]? = some k) :
    v < s.size := h.size ▸ (List.getElem?_eq_some_iff.mp hv).1

theorem mem_ranksBehind_fresh (rank : Rank) (hint : Option String) {u : Var} {k : Rank} :
    k ∈ (s.fresh rank hint).2.ranksBehind (ranks ++ [rank]) u ↔
      k ∈ s.ranksBehind ranks u ∨ k = rank ∧ s.root u = s.size := by
  have hf := h.firstOrder.forest
  have hnew := Forest.root_of_size_le (s := s) le_rfl
  have hself : ∀ {r}, s.Reaches s.size r ↔ r = s.size := fun {r} => by
    refine ⟨fun hr => (hr.eq_root fun t => ?_).trans hnew.1, ?_⟩
    · rw [kind_root hf, kind_eq_poisoned.mpr hnew.2]; simp
    · rintro rfl; rw [Reaches, hnew.1]
  simp only [ranksBehind, Set.mem_ofPred_eq, fresh_reaches hf, (fresh_view hf rank hint).2.1]
  constructor
  · rintro ⟨v, hv, hr⟩
    rcases Nat.lt_or_ge v ranks.length with hlt | hge
    · exact .inl ⟨v, by rwa [List.getElem?_append_left hlt] at hv, hr⟩
    · obtain ⟨hlt, hk⟩ := List.getElem?_eq_some_iff.mp hv
      obtain rfl : v = s.size := by
        rw [List.length_append, List.length_singleton] at hlt
        rw [h.size]; exact Nat.le_antisymm (Nat.le_of_lt_succ hlt) hge
      exact .inr ⟨by simpa [h.size] using hk.symm, hself.mp hr⟩
  · rintro (⟨v, hv, hr⟩ | ⟨rfl, hr⟩)
    · refine ⟨v, ?_, hr⟩
      rw [List.getElem?_append_left (List.getElem?_eq_some_iff.mp hv).1, hv]
    · exact ⟨s.size, by simp [h.size], hself.mpr hr⟩

theorem fresh (rank : Rank) (hint : Option String) :
    Minimal (ranks ++ [rank]) (s.fresh rank hint).2 := by
  have hf := h.firstOrder.forest
  refine ⟨h.firstOrder.fresh rank hint, by simp [h.size], fun u k hk => ?_⟩
  rw [rank?, (fresh_view hf rank hint).2.2] at hk
  by_cases hu : u = s.size
  · subst hu
    have hroot := (Forest.root_of_size_le (s := s) le_rfl).1
    rw [if_pos rfl] at hk
    cases hk
    refine ⟨(h.mem_ranksBehind_fresh rank hint).mpr (.inr ⟨rfl, hroot⟩), fun k' hk' => ?_⟩
    rcases (h.mem_ranksBehind_fresh rank hint).mp hk' with ⟨v, hv, hr⟩ | ⟨rfl, _⟩
    · have hlt := hr.lt h.firstOrder.toFormed (h.lt_size hv)
      rw [hroot] at hlt
      exact absurd hlt (Nat.lt_irrefl _)
    · exact le_rfl
  · rw [if_neg hu] at hk
    obtain ⟨hmem, hleast⟩ := h.least u k hk
    refine ⟨(h.mem_ranksBehind_fresh rank hint).mpr (.inl hmem), fun k' hk' => ?_⟩
    rcases (h.mem_ranksBehind_fresh rank hint).mp hk' with hk' | ⟨_, hroot⟩
    · exact hleast hk'
    · exact absurd (hroot ▸ hf.root_lt (lt_of_rank? hk)) (Nat.lt_irrefl _)

theorem distills (hs : Distills s s') (hsize : s'.size = s.size) : Minimal ranks s' := by
  refine ⟨hs.firstOrder, hsize.trans h.size, fun u k hk => ⟨?_, ?_⟩⟩
  · obtain ⟨y, hy, hyu⟩ := hs.stems u k hk
    obtain ⟨v, hv, hvy⟩ := (h.least y k hy).1
    have hfree : s'.kind (s'.root u) = .free := by
      rw [kind_root hs.firstOrder.forest]
      exact kind_eq_free_iff_rank?.mpr ⟨k, hk⟩
    exact ⟨v, hv, reaches_of_source h.firstOrder hs.firstOrder hs.size_le hs.solved (h.lt_size hv)
      (lt_of_rank? hy) hvy hyu hfree⟩
  · rintro k' ⟨v, hv, hvu⟩
    have hk' : s'.rank? (s'.root u) = some k := by rw [rank?_root hs.firstOrder.forest, hk]
    obtain ⟨y, hvy, hy, hyu⟩ := hs.exists_source h.firstOrder (h.lt_size hv) hvu
      (kind_eq_free_iff_rank?.mpr ⟨k, hk'⟩)
    obtain ⟨j, hj⟩ := kind_eq_free_iff_rank?.mp hy
    have hroot := hvy.root_eq h.firstOrder.forest
    exact (hs.sinks y j _ k hj hyu hk').trans ((h.least y j hj).2 ⟨v, hv, hroot.symm ▸ hvy⟩)

theorem of_agrees (hag : Agrees s s') (hf : s'.Forest) : Minimal ranks s' := by
  have hal : Alike s s' := ⟨hag.size.symm, hag.aliases.symm, fun v => by rw [hag.root],
    fun v => by rw [kind, kind, hag.content]⟩
  refine ⟨h.firstOrder.alike hf hal, hal.size.trans h.size, fun u k hk => ?_⟩
  have hleast := h.least u k (by rwa [hag.rank?])
  simpa only [ranksBehind, hal.reaches, hal.root] using hleast

end Minimal

theorem Minimal.run (h : Minimal ranks s.bare) (hs : s.Plain) {n : Nat} {c : Call}
    (hrun : Ran n c s (.unified s')) (hc : c.FirstOrder s.aliases) (hfit : c.Fits s.size) :
    s'.Plain ∧ s'.aliases = s.aliases ∧ Minimal ranks s'.bare := by
  obtain ⟨t, hbare, hag, hs', hal⟩ := Call.run_bare hrun.1 hs hc
  have hruns := runs_of_ran ⟨hbare, by simp⟩
  have hmin := h.distills (hruns.distills h.firstOrder hc.bare hfit)
    ((hruns.faithful h.firstOrder hc.bare hfit).keeps _ rfl).2.1
  have hf : s.Forest := ⟨hs.linksEnd, h.firstOrder.forest.inside⟩
  have hf' := (ran_ages hf h.firstOrder.toFormed.contained hfit.below (by rw [hrun.1]; rfl)).forest
  exact ⟨hs', hal, hmin.of_agrees hag ⟨hag.linksEnd', hf'.inside⟩⟩

theorem Built.minimal (h : Built table ranks s) :
    s.Plain ∧ s.aliases = table ∧ Minimal ranks s.bare := by
  induction h with
  | start compress =>
    refine ⟨⟨(forest_empty table compress).linksEnd, fun v t ht => ?_⟩, rfl, .empty compress⟩
    cases ht
  | fresh rank hint _ ih =>
    obtain ⟨hs, hal, hmin⟩ := ih
    exact ⟨hs.fresh rank hint, hal, hmin.fresh rank hint⟩
  | @unify ranks s s' n l r _ hl hr hfl hfr h ih =>
    obtain ⟨hs, rfl, hmin⟩ := ih
    have hrun : Ran n (.types l r) s (.unified s') := ⟨h, by simp⟩
    exact hmin.run hs hrun ⟨hfl, hfr⟩ ⟨hfl.fits hl, hfr.fits hr⟩
  | @unifyVars ranks s s' n v w _ hv hw h ih =>
    obtain ⟨hs, rfl, hmin⟩ := ih
    have hrun : Ran n (.vars v w) s (.unified s') := ⟨h, by simp⟩
    exact hmin.run hs hrun trivial ⟨hv, hw⟩

/-- After any sequence of calls that succeeded, over variables, functions and constructors that are no
aliases, the rank of an unbound class is the least of the ranks at which those variables were made
that lead to the class through links and bindings, its members among them. -/
theorem rank?_isLeast (h : Built table ranks s) {u : Var} {k : Rank} (hu : s.rank? u = some k) :
    IsLeast {k | ∃ v, ranks[v]? = some k ∧ s.Reaches v (s.root u)} k :=
  h.minimal.2.2.least u k hu

def looped : AliasTable := [("Loop", ⟨[], .con "Loop" []⟩)]

def five (first third : Content) (fourth fifth : Rank) : Store where
  slots := #[.root first, .root (.unbound 1 none), .root third, .root (.unbound fourth none),
    .root (.unbound fifth none)]
  aliases := looped

theorem five_built : Built looped [3, 1, 2, 5, 4]
    (five (.bound (.func (.var 1) (.list (.var 3)))) (.bound (.func (.var 1) (.var 4))) 3 2) := by
  have hstart : Built looped [3, 1, 2, 5, 4] (five (.unbound 3 none) (.unbound 2 none) 5 4) :=
    ((((Built.start true).fresh 3 none).fresh 1 none).fresh 2 none).fresh 5 none |>.fresh 4 none
  have hfirst : Built looped [3, 1, 2, 5, 4]
      (five (.bound (.func (.var 1) (.list (.var 3)))) (.unbound 2 none) 3 4) :=
    .unify (n := 4) (l := .var 0) (r := .func (.var 1) (.list (.var 3))) hstart (by decide) (by decide) .var
      (.func .var (.app rfl (by simp [Ty.FirstOrder.var]))) rfl
  exact .unify (n := 4) (l := .func (.var 1) (.var 4)) (r := .var 2) hfirst (by decide) (by decide)
    (.func .var .var) .var rfl

/-- The two functions are made one. Four variables lead to the fourth after that, and it has the rank
of the third. -/
theorem rank?_isLeast_five : ∃ s,
    Built looped [3, 1, 2, 5, 4] s ∧ s.rank? 3 = some 2 ∧
      IsLeast {k | ∃ v, [3, 1, 2, 5, 4][v]? = some k ∧ s.Reaches v (s.root 3)} 2 := by
  have hrun : ∃ s, unifyVars 12 0 2 (five (.bound (.func (.var 1) (.list (.var 3))))
      (.bound (.func (.var 1) (.var 4))) 3 2) = .unified s ∧ s.rank? 3 = some 2 := ⟨_, rfl, rfl⟩
  obtain ⟨s, hs, hrank⟩ := hrun
  have hbuilt := Built.unifyVars five_built (by decide) (by decide) hs
  exact ⟨s, hbuilt, hrank, rank?_isLeast hbuilt hrank⟩

end Store
end TypeSolver
