import TypeSolver.Proofs.Copies
import TypeSolver.Proofs.Equations

/-!
# TypeSolver.Proofs.Circles

Where infinite types come from. Binding an unbound class is checked, so it closes no circle, and
giving up classes only takes bindings away. What is left is the step in which one bound class goes
under another after their types were made equal: it closes a circle exactly if the second leads to
the first (`acyclic_link_iff`), and two types that were made equal may do so when one of them is
an extension of the other.

The search behind the occurs check opens a class once, so it ends whatever the store says.
`Search.descend` follows a binding as often as it meets it. Where no class leads back to itself, it
ends too, with what the search finds (`occursIn_eq`, `lowerIn_eq`).
-/

namespace TypeSolver

/-- Look up `v` and all that is behind it, without asking what was seen before. Bindings that run in
a circle take all fuel. -/
def Search.descend (target : Option Var) : Nat → Search → Var → Option Search
  | 0, _, _ => none
  | fuel + 1, q, v =>
    if q.isOver target then some q
    else
      match q.store.find v with
      | (r, s) =>
        match s.content r with
        | .bound t => t.vars.foldlM (descend target fuel) ⟨s, r :: q.seen⟩
        | _ => some ⟨s, r :: q.seen⟩

namespace Store

def occursIn (fuel : Nat) (s : Store) (r : Var) (t : Ty) : Option (Bool × Store) :=
  (t.vars.foldlM (Search.descend (some r) fuel) { store := s }).map fun q =>
    (q.isOver (some r), q.store)

def lowerIn (fuel : Nat) (s : Store) (t : Ty) (rank : Rank) : Option Store :=
  (t.vars.foldlM (Search.descend none fuel) { store := s }).map fun q =>
    q.store.lowerRanks q.seen rank

variable {s s' : Store} {r v : Var} {t : Ty} {target : Option Var} {k k' : Nat} {q q' : Search}

theorem foldlM_prolongs {α β : Type} {f g : β → α → Option β}
    (h : ∀ b a x, f b a = some x → g b a = some x) {as : List α} {b x : β}
    (hrun : as.foldlM f b = some x) : as.foldlM g b = some x := by
  induction as generalizing b with
  | nil => exact hrun
  | cons a as ih =>
    rw [List.foldlM_cons] at hrun ⊢
    obtain ⟨y, hy, hrest⟩ := Option.bind_eq_some_iff.mp hrun
    exact Option.bind_eq_some_iff.mpr ⟨y, h b a y hy, ih hrest⟩

theorem descend_mono (hk : k ≤ k') (h : q.descend target k v = some q') :
    q.descend target k' v = some q' := by
  induction k' generalizing k q v q' with
  | zero => obtain rfl := Nat.le_zero.mp hk; exact h
  | succ k' ih =>
    obtain _ | k := k
    · cases h
    rw [Search.descend] at h ⊢
    dsimp only at h ⊢
    by_cases hover : q.isOver target
    · rwa [if_pos hover] at h ⊢
    rw [if_neg hover] at h ⊢
    cases hc : (q.store.find v).2.content (q.store.find v).1 with
    | bound t =>
      simp only [hc] at h ⊢
      exact foldlM_prolongs (fun _ _ _ => ih (Nat.le_of_succ_le_succ hk)) h
    | unbound | poisoned => simp only [hc] at h ⊢; exact h

theorem reaches_of_bound (hs : s.Forest) (hk : s.kind v = .bound t) :
    s.Reaches v r ↔ r = s.root v ∨ ∃ w ∈ t.vars, s.Reaches w r := by
  have hk' : s.kind (s.root v) = .bound t := by rwa [kind_root hs]
  refine ⟨fun h => h.of_bound hk', ?_⟩
  rintro (rfl | ⟨w, hw, h⟩)
  · exact .refl
  · exact .head ⟨t, hk', w, hw, rfl⟩ h

theorem reaches_of_not_bound (hs : s.Forest) (hk : ∀ t, s.kind v ≠ .bound t) :
    s.Reaches v r ↔ r = s.root v := by
  refine ⟨fun h => h.eq_root fun t => by rw [kind_root hs]; exact hk t, ?_⟩
  rintro rfl
  exact .refl

/-- With this fuel, a descent from `v` ends, and the target is among what it has seen, or any root
if there is none, exactly if `v` leads there. -/
def DescentEnds (s : Store) (target : Option Var) (fuel : Nat) (v : Var) : Prop :=
  ∀ q : Search, Relinked s q.store → ∃ q', q.descend target fuel v = some q' ∧
    Relinked s q'.store ∧
    ∀ r, (∀ x ∈ target, x = r) → (r ∈ q'.seen ↔ r ∈ q.seen ∨ s.Reaches v r)

theorem descentEnds_list {vs : List Var} (h : ∀ v ∈ vs, s.DescentEnds target k v) (q : Search)
    (hq : Relinked s q.store) : ∃ q', vs.foldlM (Search.descend target k) q = some q' ∧
      Relinked s q'.store ∧
      ∀ r, (∀ x ∈ target, x = r) → (r ∈ q'.seen ↔ r ∈ q.seen ∨ ∃ v ∈ vs, s.Reaches v r) := by
  induction vs generalizing q with
  | nil => exact ⟨q, rfl, hq, by simp⟩
  | cons v vs ih =>
    obtain ⟨q1, hrun1, hq1, hseen1⟩ := h v (by simp) q hq
    obtain ⟨q', hrun, hq', hseen⟩ := ih (fun w hw => h w (by simp [hw])) q1 hq1
    refine ⟨q', by rw [List.foldlM_cons, hrun1]; exact hrun, hq', fun r hr => ?_⟩
    rw [hseen r hr, hseen1 r hr]
    simp [or_assoc]

theorem descentEnds_succ (hs : s.Forest) (target : Option Var) (k : Nat) (v : Var)
    (h : ∀ t, s.kind v = .bound t → ∀ w ∈ t.vars, s.DescentEnds target k w) :
    s.DescentEnds target (k + 1) v := by
  intro q hq
  rw [Search.descend]
  by_cases hover : q.isOver target
  · refine ⟨q, if_pos hover, hq, fun r hr => ?_⟩
    obtain _ | x := target
    · cases hover
    obtain rfl := hr x rfl
    have hmem := of_decide_eq_true hover
    exact iff_of_true hmem (.inl hmem)
  obtain ⟨s1, hfind, hs1⟩ := hq.find_eq hs.linksEnd v
  have hcontent : s1.content (s.root v) = s.content v := by
    rw [hs1.content hs.linksEnd, hs.content_root]
  simp only [if_neg hover, hfind, hcontent]
  cases hc : s.content v with
  | bound t =>
    have hk : s.kind v = .bound t := kind_eq_bound.mpr hc
    obtain ⟨q', hrun, hq', hseen⟩ := descentEnds_list (h t hk) ⟨s1, s.root v :: q.seen⟩ hs1
    refine ⟨q', hrun, hq', fun r hr => ?_⟩
    rw [hseen r hr, reaches_of_bound hs hk, List.mem_cons]
    tauto
  | unbound | poisoned =>
    refine ⟨_, rfl, hs1, fun r _ => ?_⟩
    rw [reaches_of_not_bound hs (by simp [kind_eq_bound, hc]), List.mem_cons, or_comm]

theorem Grounded.descentEnds (hg : s.Grounded) (hs : s.Forest) (target : Option Var) (v : Var) :
    EnoughFuel fun k => s.DescentEnds target k v := by
  suffices ∀ x, s.root v = x → EnoughFuel fun k => s.DescentEnds target k v from this _ rfl
  intro x
  induction x using hg.induction generalizing v with
  | _ x ih =>
    rintro rfl
    by_cases hk : ∃ t, s.kind v = .bound t
    · obtain ⟨t, hk⟩ := hk
      refine .of_succ ((EnoughFuel.forall_mem fun w (hw : w ∈ t.vars) => ih (s.root w)
        ⟨t, by rwa [kind_root hs], w, hw, rfl⟩ w rfl).mono fun k hvars => ?_)
      refine descentEnds_succ hs target k v fun t' hk' => ?_
      rw [hk] at hk'
      cases hk'
      exact hvars
    · exact .of_succ (.intro fun k => descentEnds_succ hs target k v fun t ht => absurd ⟨t, ht⟩ hk)

theorem Grounded.exists_descent (hg : s.Grounded) (hs : s.Formed) (ht : t.Fits s.size)
    (target : Option Var) : ∃ q, (EnoughFuel fun k =>
        t.vars.foldlM (Search.descend target k) { store := s } = some q) ∧ Relinked s q.store ∧
      ∀ r, (∀ x ∈ target, x = r) → (r ∈ q.seen ↔ r ∈ s.reach t) := by
  obtain ⟨k, hk⟩ := (EnoughFuel.forall_mem fun v (_ : v ∈ t.vars) =>
    hg.descentEnds hs.forest target v).exists_fuel
  obtain ⟨q, hrun, hq, hseen⟩ := descentEnds_list hk { store := s } .refl
  refine ⟨q, ⟨k, fun k' hk' => foldlM_prolongs (fun _ _ _ => descend_mono hk') hrun⟩, hq,
    fun r hr => ?_⟩
  rw [hseen r hr, mem_reach hs ht]
  simp

theorem Grounded.occursIn_eq (hg : s.Grounded) (hs : s.Formed) (ht : t.Fits s.size) (r : Var) :
    ∃ s', EnoughFuel fun k => s.occursIn k r t = some ((s.occurs r t).1, s') := by
  obtain ⟨q, hrun, _, hseen⟩ := hg.exists_descent hs ht (some r)
  obtain ⟨s1, hocc, _⟩ := occurs_eq hs.forest.linksEnd r t
  refine ⟨q.store, hrun.mono fun k hk => ?_⟩
  have hmem := hseen r (by simp)
  rw [occursIn, hk, hocc]
  simp [Search.isOver, hmem]

theorem Grounded.lowerIn_eq (hg : s.Grounded) (hs : s.Formed) (ht : t.Fits s.size) (rank : Rank) :
    ∃ s', (EnoughFuel fun k => s.lowerIn k t rank = some s') ∧ Alike s s' ∧
      ∀ w, s'.content w = (s.adjustRanks t rank).content w := by
  have hl := hs.forest.linksEnd
  obtain ⟨q, hrun, hq, hseen⟩ := hg.exists_descent hs ht none
  obtain ⟨s1, hadjust, h1⟩ := adjustRanks_eq hl t rank
  have hmem : ∀ r, r ∈ q.seen ↔ r ∈ s.reach t := fun r => hseen r (by simp)
  refine ⟨q.store.lowerRanks q.seen rank, hrun.mono fun k hk => by rw [lowerIn, hk]; rfl,
    (hq.alike hl).trans (lowerRanks_alike (hq.forest hs.forest) rank q.seen).2, fun w => ?_⟩
  rw [hadjust, lowerRanks_content (hq.forest hs.forest) rank, lowerRanks_content (h1.forest hs.forest) rank]
  · simp only [hmem, hq.root hl, h1.root hl, hq.content hl, h1.content hl]
  · intro v hv
    rw [h1.size hl]
    exact reach_lt hs ht v hv
  · intro v hv
    rw [hq.size hl]
    exact reach_lt hs ht v ((hmem v).mp hv)

def Guard.untied : Guard where
  join s a b := ¬ s.Reaches b a
  skip _ _ _ := True

theorem History.grounded {g : Guard} (hg : g.Untied) {P : Ty → Prop} {mayFail : Bool}
    {table : AliasTable} {compress : Bool} {s : Store} (hu : table.Usable)
    (h : History g P mayFail table compress s) : s.Grounded := by
  refine (h.steps hu).2.grounded hg (wellFormed_empty hu compress) ⟨fun v => .intro v ?_⟩
  rintro r ⟨t, hk, _⟩
  exact absurd (lt_of_kind (by rw [hk]; simp)) (Nat.not_lt_zero v)

/-- After any calls, failed ones included, no class leads back to itself, if in all of them no class
went under one that leads to it. So the occurs check and the lowering of ranks end, also without a
record of the classes seen, and with enough fuel every type can be read and copied. To ask this of
the step that puts one class under another is to ask that it closes no circle. -/
theorem acyclic_of_untied {env : Environment} {table : AliasTable} (henv : env.Ordered)
    (htable : env.aliasTable = .ok table) {compress : Bool} {s : Store}
    (hs : History .untied (fun _ => True) true table compress s) :
    s.Acyclic ∧
    (∀ t, t.Fits s.size →
      (∀ r, r ∈ s.reach t ↔ ∃ v ∈ t.vars, s.Reaches v r) ∧
      (∀ r, ∃ s', EnoughFuel fun k => s.occursIn k r t = some ((s.occurs r t).1, s')) ∧
      (∀ rank, ∃ s', (EnoughFuel fun k => s.lowerIn k t rank = some s') ∧
        ∀ v, s'.root v = s.root v ∧ s'.content v = (s.adjustRanks t rank).content v) ∧
      (∃ n s', EnoughFuel fun k => s.snapshot k t = some n ∧ s.takeSnapshot k t = some (n, s')) ∧
      ∀ qs rank, ∃ u s', EnoughFuel fun k => s.instantiate k qs rank t = some (u, s')) ∧
    ∀ a b, a < s.size → b < s.size → s.root a = a → s.root b = b → a ≠ b →
      ((s.link a b).Acyclic ↔ ¬ s.Reaches b a) := by
  have hu := Environment.aliasTable_usable henv htable
  have hwf := (hs.steps hu).1
  have hg : s.Grounded := hs.grounded (fun _ _ _ h => h) hu
  have hac := acyclic_iff.mpr hg
  refine ⟨hac, fun t ht => ⟨fun r => mem_reach hwf.toFormed ht, fun r => ?_, fun rank => ?_, ?_,
    fun qs rank => ?_⟩,
    fun a b ha hb hra hrb hab => acyclic_link_iff hac hwf.toFormed ha hb hra hrb hab⟩
  · exact hg.occursIn_eq hwf.toFormed ht r
  · obtain ⟨s', hrun, hal, hcontent⟩ := hg.lowerIn_eq hwf.toFormed ht rank
    exact ⟨s', hrun, fun v => ⟨hal.root v, hcontent v⟩⟩
  · obtain ⟨θ, hθ⟩ := hg.exists_reading hwf.toFormed hwf.usable
    obtain ⟨m, hm⟩ := hwf.usable.exists_denotes θ t
    exact ⟨m.named, exists_takeSnapshot hwf.forest.linksEnd
      (hθ.snapshot hg hwf.toFormed hwf.usable ht hm)⟩
  · obtain ⟨u, c, hrun, _⟩ := hg.exists_instance hwf.toFormed qs rank ht
    exact ⟨u, c.store, hrun⟩

/-- The first two of four variables stand for lists of the others. -/
def separateLists : Store where
  slots := #[.root (.bound (.list (.var 2))), .root (.bound (.list (.var 3))),
    .root (.unbound 0 none), .root (.unbound 0 none)]
  aliases := boxes.aliases

def joinedLists : Store where
  slots := #[.link 1, .root (.bound (.list (.var 3))), .link 3, .root (.unbound 0 none)]
  aliases := boxes.aliases

theorem list_fits {v : Var} (hv : v < 4) : (Ty.var v).Fits 4 ∧ (Ty.list (.var v)).Fits 4 := by
  simpa [Ty.Fits, Ty.over_app, Ty.over_var, Ty.list] using hv

theorem history_separateLists : History .untied (fun _ => True) true boxes.aliases true separateLists := by
  have h : History .untied (fun _ => True) true boxes.aliases true
      ⟨#[.root (.bound (.list (.var 2))), .root (.unbound 0 none), .root (.unbound 0 none),
        .root (.unbound 0 none)], boxes.aliases, true⟩ :=
    .unified (history_blank boxes.aliases 4) (.unify (n := 12) (list_fits (v := 0) (by decide)).1
      (list_fits (v := 2) (by decide)).2 trivial trivial rfl (by simp)
      (Runs.keeps (Rule.varLeft rfl (Rule.bind (k := 1) rfl rfl rfl Outcome.noConfusion))))
  exact .unified h (.unify (n := 12) (list_fits (v := 1) (by decide)).1
    (list_fits (v := 3) (by decide)).2 trivial trivial rfl (by simp)
    (Runs.keeps (Rule.varLeft rfl (Rule.bind (k := 1) rfl rfl rfl Outcome.noConfusion))))

theorem separateLists_runs : Runs .untied 12 (.vars 0 1) separateLists (.unified joinedLists) := by
  have hmerge : Runs .untied 11 (.terms (.list (.var 2)) (.list (.var 3))) separateLists
      (.unified { separateLists with slots := separateLists.slots.set! 2 (.link 3) }) :=
    Rule.settled (k := 1) rfl rfl (.app rfl (.cons (Rule.varVar (Rule.vars rfl rfl
      (.merge (by decide) rfl rfl))) .nil))
  refine Rule.vars rfl rfl (.join (by decide) rfl rfl hmerge rfl rfl fun _ => ?_)
  intro hr
  rcases hr.of_bound (t := .list (.var 3)) rfl with heq | ⟨w, hw, hr⟩
  · exact absurd heq (by decide)
  · obtain rfl : w = 3 := by simpa [Ty.list] using hw
    exact absurd (hr.eq_root fun t ht => by cases ht) (by decide)

/-- Two lists are made equal, by which one class goes under another. Then what they are lists of is
refused to be such a list itself. -/
theorem acyclic_of_untied_lists : ∃ m s', unifyVars 12 0 1 separateLists = .unified joinedLists ∧
    unify 12 (.var 3) (.list (.var 0)) joinedLists = .failed m s' ∧ s'.Acyclic := by
  have h : History .untied (fun _ => True) true boxes.aliases true joinedLists :=
    .unified history_separateLists (.unifyVars (n := 12) (by decide) (by decide) rfl (by simp)
      separateLists_runs.keeps)
  have hrun : ∃ m s', unify 12 (.var 3) (.list (.var 0)) joinedLists = .failed m s' ∧
      Runs .untied 12 (.types (.var 3) (.list (.var 0))) joinedLists (.failed m s') := by
    refine ⟨_, ⟨#[.link 1, .root (.bound (.list (.var 3))), .link 3, .root .poisoned],
      boxes.aliases, true⟩, rfl, ?_⟩
    exact Rule.varLeft rfl (Rule.bind (k := 10) rfl rfl rfl Outcome.noConfusion)
  obtain ⟨m, s', hfail, hruns⟩ := hrun
  have h' : History .untied (fun _ => True) true boxes.aliases true s' :=
    .failed rfl h (.unify (list_fits (by decide)).1 (list_fits (by decide)).2 trivial trivial hfail
      (by simp) hruns.keeps)
  exact ⟨m, s', rfl, hfail, (acyclic_of_untied boxes_ordered boxes_aliasTable h').1⟩

/-- A record without fields is extended by a variable that becomes a record itself. The two are
made equal, which adds nothing, and the second class goes under the first that leads to it. -/
theorem unifyVars_closes_circle : ∃ s1 s2 s3,
    unify 12 (.var 1) (.record [] (some 0)) (blank [] 3) = .unified s1 ∧
    unify 12 (.var 0) (.record [("y", .int)] (some 2)) s1 = .unified s2 ∧
    unifyVars 12 0 1 s2 = .unified s3 ∧ s3.Edge 1 1 ∧ ¬ s3.Acyclic := by
  have hedge : ∃ s1 s2 s3, unify 12 (.var 1) (.record [] (some 0)) (blank [] 3) = .unified s1 ∧
      unify 12 (.var 0) (.record [("y", .int)] (some 2)) s1 = .unified s2 ∧
      unifyVars 12 0 1 s2 = .unified s3 ∧ s3.Edge 1 1 :=
    ⟨⟨#[.root (.unbound 0 none), .root (.bound (.record [] (some 0))), .root (.unbound 0 none)],
        [], true⟩,
      ⟨#[.root (.bound (.record [("y", .int)] (some 2))), .root (.bound (.record [] (some 0))),
        .root (.unbound 0 none)], [], true⟩,
      ⟨#[.link 1, .root (.bound (.record [] (some 0))), .root (.unbound 0 none)], [], true⟩,
      rfl, rfl, rfl, _, rfl, 0, by simp, rfl⟩
  obtain ⟨s1, s2, s3, h1, h2, h3, hedge⟩ := hedge
  exact ⟨s1, s2, s3, h1, h2, h3, hedge, fun hac => hac 1 (.single hedge)⟩

end Store
end TypeSolver
