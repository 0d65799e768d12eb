import Mathlib
import TypeSolver.Proofs.Compression
import TypeSolver.Proofs.Groups
import TypeSolver.Proofs.Parallel
import TypeSolver.Proofs.Tails

/-!
# TypeSolver.Proofs.Commutation

The order of groups. The walk over a program makes the same constraint for a group wherever the
group stands, with other variables (`Generate.Segment`), and two programs that differ in the order
of two adjacent groups have the same groups up to these names (`Generate.Swapped`). If neither group
refers to a name of the other, and there are no records, then both programs get types or neither
does, and their bindings are the same (`infers_swap_iff`). With records, a type that was finished
can change when a later group is solved, and the order can be seen (`order_matters`).
-/

namespace TypeSolver

open Meaning

/-! ## Stores that variables were added to -/

namespace Store

variable {s t : Store} {new : List Slot}

def TaggedBy (s : Store) (i : Tags) : Prop := ∀ v, v < s.size → i v = s.tags v

theorem Untouched.tags_congr (hs : s.Untouched) (ht : t.Untouched) {v w : Var}
    (h : t.slots[w]? = s.slots[v]?) : t.tags w = s.tags v := by
  rw [tags, tags, if_pos (hs.root v), if_pos (ht.root w), content, content, hs.root, ht.root, h]

theorem Untouched.tags_add (hs : s.Untouched) (h : (s.add new).Untouched) {v : Var}
    (hv : v < s.size) : (s.add new).tags v = s.tags v :=
  hs.tags_congr h (by
    rw [add, Array.getElem?_append_left hv])

theorem Untouched.tags_added (hs : (s.add new).Untouched) (ht : (t.add new).Untouched) (k : Nat) :
    (t.add new).tags (t.size + k) = (s.add new).tags (s.size + k) :=
  hs.tags_congr ht (by
    have hright : ∀ u : Store, (u.add new).slots[u.size + k]? = new.toArray[k]? := fun u => by
      rw [add, size, Array.getElem?_append_right (Nat.le_add_right _ _), Nat.add_sub_cancel_left]
    rw [hright, hright])

theorem TaggedBy.of_add {i : Tags} (h : (s.add new).TaggedBy i) (hs : s.Untouched)
    (hs' : (s.add new).Untouched) : s.TaggedBy i := fun v hv => by
  have hv' : v < (s.add new).size := by
    rw [add_size]
    exact Nat.lt_add_right _ hv
  rw [h v hv', hs.tags_add hs' hv]

end Store

/-! ## Groups generated twice -/

namespace Generate

open Twins

variable {env : Environment} {g g' h h' : Generator}

/-- What is made from `a` on is called from `b` on. -/
def shift (a b : Nat) (v : Var) : Var := b + (v - a)

/-- The group was made for the definitions: it has their names, and asks for the names that are free
in them. -/
def Belongs (group : Group) (p : Part) : Prop :=
  (∀ name, name ∈ Assoc.keys p.scheme.header ↔ name ∈ defNames group.defs) ∧
    ∀ o ∈ p.scheme.qualifier.unbound [], o ∈ unboundDefs (defNames group.defs) group.defs

/-- The constraints of groups are generated from `g` and from `h`. -/
structure Segment (env : Environment) (gs : List Group) (g g' h h' : Generator) (ps : List Part) :
    Prop where
  left : groups env gs g = .ok (ps.map Part.scheme) g'
  right : groups env gs h = .ok (ps.map Part.twin) h'
  rank : h'.rank = g'.rank
  untouched : h'.store.Untouched
  added : ∃ new, g'.store = g.store.add new ∧ h'.store = h.store.add new
  spans : ∀ i j, g'.store.TaggedBy i → h'.store.TaggedBy j →
    Spans i j ps g.store.size g'.store.size h.store.size h'.store.size
  belong : List.Forall₂ Belongs gs ps

theorem bind_of_eq_ok {α β : Type} {m : Generate α} {f : α → Generate β} {a : α}
    {r : EStateM.Result FatalError Generator β} (hm : m g = .ok a g') (hf : f a g' = r) :
    (m >>= f) g = r := by
  show EStateM.bind m f g = r
  rw [EStateM.bind, hm]
  exact hf

theorem shift_injOn {a b : Nat} {v w : Var} (hv : a ≤ v) (hw : a ≤ w)
    (h : shift a b v = shift a b w) : v = w := by
  rw [← Nat.add_sub_of_le hv, ← Nat.add_sub_of_le hw, Nat.add_left_cancel h]

variable {ds : List Def} {fs : List Fragment} {schemes : List Scheme}

theorem nested_untouched (h : nested (definitions env ds) g = .ok fs g') (hg : g.store.Untouched) :
    g'.store.Untouched := by
  obtain ⟨g1, hfs, rfl⟩ := nested_eq_ok h
  exact (definitions_produces (.any env) ds (.inl .intro) _ _ hfs hg rfl rfl).untouched

theorem group_sound (henv : env.plain = true) (hds : plainDefs ds = true)
    (hrun : nested (definitions env ds) g = .ok fs g') (hg : g.store.Untouched) :
    (groupScheme fs).qualifier.Types (Ty.FirstOrder []) ∧
    (∀ v, (groupScheme fs).qualifier.Mentions v → g.store.size ≤ v ∧ v < g'.store.size) ∧
    ∀ e ∈ (groupScheme fs).header, e.2.FirstOrder [] ∧
      ∀ v ∈ e.2.vars, g.store.size ≤ v ∧ v < g'.store.size := by
  obtain ⟨g1, hfs, rfl⟩ := nested_eq_ok hrun
  have hmakes := definitions_produces (Environment.admits_of_plain henv) ds (.inr hds) _ _ hfs hg
    rfl rfl
  obtain ⟨meant, hmeant⟩ := hmakes.places
  have hall := (hmeant meant (fun _ _ _ => rfl) _ hmakes.untouched.madeAt (fun _ => False)
    nofun).joinAll nofun
  have hdefs := Constraint.Sound.recursive hall.constraint hall.env
  exact ⟨hdefs.types, fun v hv => (hdefs.mentions v hv).resolve_left id, fun e he =>
    ⟨(hall.env e he).1, fun v hv => ⟨((hall.env e he).2 v hv).1, ((hall.env e he).2 v hv).2.1⟩⟩⟩

theorem group_belongs (henv : env.Readable) {group : Group}
    (hrun : nested (definitions env group.defs) g = .ok fs g') {own : Var → Prop}
    {names : Var → Var} : Belongs group ⟨groupScheme fs, own, names⟩ := by
  obtain ⟨g1, hfs, rfl⟩ := nested_eq_ok hrun
  have hchecked := definitions_checked henv group.defs { g with rank := g.rank + 1 }
  rw [hfs] at hchecked
  obtain ⟨hnames, hasks⟩ := hchecked.2.joinAll
  refine ⟨hnames, fun o ho => ?_⟩
  have hscope : ∀ x, x ∈ Assoc.keys (Fragment.joinAll fs).env ++ [] ↔ x ∈ defNames group.defs := by
    simp [hnames]
  replace ho : o ∈ (Constraint.recursive (Fragment.joinAll fs).env
    (Fragment.joinAll fs).constraint).unbound [] := ho
  rw [Constraint.unbound_recursive, Constraint.unbound_congr hscope, hasks] at ho
  exact ho

namespace Segment

variable {gs : List Group} {ps : List Part} {i : Tags}

theorem tagged_left (hseg : Segment env gs g g' h h' ps) (hg : g.store.Untouched)
    (hi : g'.store.TaggedBy i) : g.store.TaggedBy i := by
  obtain ⟨new, hadd, _⟩ := hseg.added
  have hg' := (groups_chain _ hseg.left hg rfl rfl).untouched
  rw [hadd] at hi hg'
  exact hi.of_add hg hg'

theorem tagged_right (hseg : Segment env gs g g' h h' ps) (hh : h.store.Untouched)
    (hi : h'.store.TaggedBy i) : h.store.TaggedBy i := by
  obtain ⟨new, _, hadd⟩ := hseg.added
  have hh' := hseg.untouched
  rw [hadd] at hi hh'
  exact hi.of_add hh hh'

end Segment

theorem exists_segment (henv : env.plain = true) (hread : env.Readable) {gs : List Group}
    (hgs : gs.all (fun g => plainDefs g.defs) = true) (hrun : groups env gs g = .ok schemes g')
    (hg : g.store.Untouched) (hh : h.store.Untouched) (hrank : h.rank = g.rank) :
    ∃ h' ps, schemes = ps.map Part.scheme ∧
      Segment env gs g g' h h' ps := by
  induction gs generalizing g h schemes with
  | nil =>
    obtain ⟨rfl, rfl⟩ := pure_eq_ok hrun
    exact ⟨h, [], rfl, rfl, rfl, hrank, hh, ⟨[], (Store.add_nil _).symm, (Store.add_nil _).symm⟩,
      fun _ _ _ _ => .nil _ _, .nil⟩
  | cons group gs ih =>
    rw [List.all_cons, Bool.and_eq_true] at hgs
    obtain ⟨fs, g1, hfs, hrun'⟩ := bind_eq_ok hrun
    obtain ⟨rest, g2, hrest, hpure⟩ := bind_eq_ok hrun'
    obtain ⟨rfl, rfl⟩ := pure_eq_ok hpure
    have hshift : Shifted (shift g.store.size h.store.size) g h :=
      ⟨hrank, fun k => by rw [shift, Nat.add_sub_cancel_left]⟩
    obtain ⟨h1, new, hfs', hshift1, hg1, hh1⟩ := (definitions_follows group.defs).nested g h fs g1
      hshift hfs
    have hug1 : g1.store.Untouched := nested_untouched hfs hg
    have huh1 : h1.store.Untouched := nested_untouched hfs' hh
    obtain ⟨h2, ps, rfl, hseg⟩ := ih hgs.2 hrest hug1 huh1 hshift1.rank
    obtain ⟨more, hg2, hh2⟩ := hseg.added
    have hsize : g1.store.size = g.store.size + new.length := by rw [hg1, Store.add_size]
    have hsize' : h1.store.size = h.store.size + new.length := by rw [hh1, Store.add_size]
    let p : Part := ⟨groupScheme fs, fun v => g.store.size ≤ v ∧ v < g1.store.size,
      shift g.store.size h.store.size⟩
    have hnamed : ∀ x, p.named x → h.store.size ≤ x ∧ x < h1.store.size := by
      rintro x ⟨v, ⟨hle, hlt⟩, rfl⟩
      refine ⟨Nat.le_add_right _ _, ?_⟩
      rw [hsize] at hlt
      rw [hsize']
      exact Nat.add_lt_add_left (Nat.sub_lt_left_of_lt_add hle hlt) _
    refine ⟨h2, p :: ps, rfl, hrun, ?_, hseg.rank, hseg.untouched, ⟨new ++ more, ?_, ?_⟩,
      fun i j hi hj => .append (.single ⟨?_, ?_, ?_, ?_, fun v hv => ?_⟩ ?_ (fun _ hv => hv) hnamed)
        (hseg.spans i j hi hj), .cons (group_belongs hread hfs) hseg.belong⟩
    · refine bind_of_eq_ok hfs' (bind_of_eq_ok hseg.right ?_)
      rw [← Scheme.renamed_groupScheme]
      rfl
    · rw [hg2, hg1, Store.add_add]
    · rw [hh2, hh1, Store.add_add]
    · exact (group_sound henv hgs.1 hfs hg).1
    · exact (group_sound henv hgs.1 hfs hg).2.1
    · exact (group_sound henv hgs.1 hfs hg).2.2
    · exact fun a b ha hb => shift_injOn ha.1 hb.1
    · have hi1 := hseg.tagged_left hug1 hi v hv.2
      have hj1 := hseg.tagged_right huh1 hj _ (hnamed _ ⟨v, hv, rfl⟩).2
      rw [hg1] at hi1 hug1
      rw [hh1] at hj1 huh1
      have htags := hug1.tags_added huh1 (v - g.store.size)
      rw [Nat.add_sub_of_le hv.1] at htags
      exact hj1.trans (htags.trans hi1.symm)
    · rw [hsize, hsize']
      exact ⟨Nat.le_add_right _ _, Nat.le_add_right _ _⟩

theorem groups_append (gs : List Group) {gs' : List Group} {r : List Scheme} :
    groups env (gs ++ gs') g = .ok r g' ↔ ∃ schemes g1 schemes', groups env gs g = .ok schemes g1 ∧
      groups env gs' g1 = .ok schemes' g' ∧ r = schemes ++ schemes' := by
  induction gs generalizing g r with
  | nil =>
    refine ⟨fun h => ⟨[], g, r, rfl, h, rfl⟩, ?_⟩
    rintro ⟨schemes, g1, schemes', h, h', rfl⟩
    obtain ⟨rfl, rfl⟩ := pure_eq_ok h
    exact h'
  | cons group gs ih =>
    constructor
    · intro h
      obtain ⟨fs, g1, hfs, h⟩ := bind_eq_ok h
      obtain ⟨rest, g2, hrest, h⟩ := bind_eq_ok h
      obtain ⟨rfl, rfl⟩ := pure_eq_ok h
      obtain ⟨schemes, g3, schemes', hfirst, hsecond, rfl⟩ := ih.mp hrest
      exact ⟨_, g3, schemes', bind_of_eq_ok hfs (bind_of_eq_ok hfirst rfl), hsecond, rfl⟩
    · rintro ⟨schemes, g1, schemes', h, h', rfl⟩
      obtain ⟨fs, g2, hfs, h⟩ := bind_eq_ok h
      obtain ⟨rest, g3, hrest, h⟩ := bind_eq_ok h
      obtain ⟨rfl, rfl⟩ := pure_eq_ok h
      exact bind_of_eq_ok hfs (bind_of_eq_ok (ih.mpr ⟨rest, g3, schemes', hrest, h', rfl⟩) rfl)

/-- Groups between which `a` and `b` stand are generated in this order and in the other. -/
structure Swapped (env : Environment) (pre post : List Group) (a b : Group) (g g' h' : Generator)
    (p0 pa pb p1 : List Part) : Prop where
  right : groups env (pre ++ b :: a :: post) g = .ok ((p0 ++ (pb ++ pa) ++ p1).map Part.twin) h'
  untouched : h'.store.Untouched
  spans : Spans g'.store.tags h'.store.tags (p0 ++ (pa ++ pb) ++ p1) g.store.size g'.store.size
    g.store.size h'.store.size
  tags : ∀ v, v < g.store.size → h'.store.tags v = g'.store.tags v
  belongLeft : List.Forall₂ Belongs [a] pa
  belongRight : List.Forall₂ Belongs [b] pb

theorem exists_swapped (henv : env.plain = true) (hread : env.Readable) {pre post : List Group}
    {a b : Group} (hplain : (pre ++ a :: b :: post).all (fun g => plainDefs g.defs) = true)
    (hrun : groups env (pre ++ a :: b :: post) g = .ok schemes g') (hg : g.store.Untouched) :
    ∃ h' p0 pa pb p1,
      schemes = (p0 ++ (pa ++ pb) ++ p1).map Part.scheme ∧
      Swapped env pre post a b g g' h' p0 pa pb p1 := by
  simp only [List.all_append, List.all_cons, Bool.and_eq_true] at hplain
  obtain ⟨hpre, ha, hb, hpost⟩ := hplain
  have hone : ∀ c : Group, plainDefs c.defs = true →
      [c].all (fun g => plainDefs g.defs) = true := fun c hc => by simp [hc]
  obtain ⟨ss0, g1, ss1, hrun0, hrest1, rfl⟩ := (groups_append pre).mp hrun
  obtain ⟨ssa, g2, ss2, hruna, hrest2, rfl⟩ := (groups_append [a]).mp hrest1
  obtain ⟨ssb, g3, ss3, hrunb, hrun3, rfl⟩ := (groups_append [b]).mp hrest2
  have h1 := groups_chain _ hrun0 hg rfl rfl
  have h2 := groups_chain _ hruna h1.untouched rfl rfl
  have h3 := groups_chain _ hrunb h2.untouched rfl rfl
  obtain ⟨t1, p0, rfl, hs0⟩ := exists_segment henv hread hpre hrun0 hg hg rfl
  obtain ⟨t2, pb, rfl, hsb⟩ := exists_segment henv hread (hone b hb) hrunb h2.untouched
    hs0.untouched (hs0.rank.trans h2.rank.symm)
  obtain ⟨t3, pa, rfl, hsa⟩ := exists_segment henv hread (hone a ha) hruna h1.untouched
    hsb.untouched (hsb.rank.trans (h3.rank.trans h2.rank))
  obtain ⟨t4, p1, rfl, hs1⟩ := exists_segment henv hread hpost hrun3 h3.untouched hsa.untouched
    (hsa.rank.trans h3.rank.symm)
  have hi3 := hs1.tagged_left h3.untouched fun _ _ => rfl
  have hi2 := hsb.tagged_left h2.untouched hi3
  have hi1 := hsa.tagged_left h1.untouched hi2
  have hi0 := hs0.tagged_left hg hi1
  have hj3 := hs1.tagged_right hsa.untouched fun _ _ => rfl
  have hj2 := hsa.tagged_right hsb.untouched hj3
  have hj1 := hsb.tagged_right hs0.untouched hj2
  have hj0 := hs0.tagged_right hg hj1
  have hmiddle := (hsa.spans _ _ hi2 hj3).cross (hsb.spans _ _ hi3 hj2)
  have hspans := ((hs0.spans _ _ hi1 hj1).append hmiddle).append
    (hs1.spans _ _ (fun _ _ => rfl) fun _ _ => rfl)
  refine ⟨t4, p0, pa, pb, p1, by simp, ?_, hs1.untouched, hspans,
    fun v hv => (hj0 v hv).trans (hi0 v hv).symm, hsa.belong, hsb.belong⟩
  have hlast := (groups_append [a]).mpr ⟨_, t3, _, hsa.right, hs1.right, rfl⟩
  have hboth := (groups_append [b]).mpr ⟨_, t2, _, hsb.right, hlast, rfl⟩
  exact (groups_append pre).mpr ⟨_, t1, _, hs0.right, hboth, by simp⟩

end Generate

/-! ## The stage before the first group -/

namespace Store.Untouched

variable {s : Store} {θ : Valuation}

theorem exists_reads (h : s.Untouched) (hal : s.aliases = []) : ∃ θ, s.Reads θ := by
  have hu : s.aliases.Usable := by
    rw [hal]
    exact @Environment.aliasTable_usable {} [] (fun _ he => absurd he List.not_mem_nil) rfl
  have hs := h.firstOrder hu
  obtain ⟨θ, hθ⟩ := hs.exists_reading
  exact ⟨θ, hs, hal, hθ⟩

theorem quantified (h : s.Untouched) (hs : s.Reads θ) {qs : List Var} {t : Ty} {m : Meaning}
    (ht : t.FirstOrder []) (hq : ∀ v ∈ t.vars, v ∈ qs) (hlt : ∀ q ∈ qs, q < s.size)
    (hm : Denotes [] θ t m) : s.Quantified θ qs t m ∧ ∀ r, m.Mentions r → r ∈ qs := by
  have hmem : ∀ r, m.Mentions r → r ∈ qs := fun r hr => by
    obtain ⟨v, hv, hmen⟩ := (ht.mentions_iff hm).mp hr
    rw [hs.reading.free v (h.free v (hlt v (hq v hv))), h.root] at hmen
    cases hmen
    exact hq _ hv
  exact ⟨⟨hm, ht, ht.fits fun v hv => hlt v (hq v hv), fun r hr =>
    List.mem_map.mpr ⟨r, hmem r hr, h.root r⟩⟩, hmem⟩

theorem pending (h : s.Untouched) {Q : Var → Prop}
    (hQ : ∀ v, Q v → ∃ k, s.rank? v = some k ∧ 0 < k) : s.Pending s.tags Q := fun v hv => by
  obtain ⟨k, hk, hpos⟩ := hQ v hv
  obtain ⟨hint, hc⟩ := rank?_eq_some.mp hk
  have htag := tags_of_unbound (h.root v) hc
  exact ⟨_, htag, htag, hpos⟩

end Store.Untouched

theorem Twins.InStep.init {ctx : Context} {n : Nat} (hctx : ctx.Closed (Ty.FirstOrder []) n)
    {s1 s2 : Store} (h1 : s1.Untouched) (h2 : s2.Untouched) (hal1 : s1.aliases = [])
    (hal2 : s2.aliases = []) (hle1 : n ≤ s1.size) (hle2 : n ≤ s2.size)
    (htags : ∀ v, v < n → s2.tags v = s1.tags v)
    (hin1 : ∀ v, n ≤ v → v < s1.size → ∃ k, s1.rank? v = some k ∧ 0 < k)
    (hin2 : ∀ v, n ≤ v → v < s2.size → ∃ k, s2.rank? v = some k ∧ 0 < k) :
    ∃ θ1 θ2, InStep s1.tags s2.tags (fun v => n ≤ v ∧ v < s1.size) (fun x => n ≤ x ∧ x < s2.size)
      (fun _ => True) ⟨ctx, [], s1⟩ θ1 ⟨ctx, [], s2⟩ θ2 := by
  obtain ⟨θ1, hr1⟩ := h1.exists_reads hal1
  obtain ⟨θ2, hr2⟩ := h2.exists_reads hal2
  refine ⟨θ1, θ2, hr1, hr2, h1.pending fun v hv => hin1 v hv.1 hv.2,
    h2.pending fun v hv => hin2 v hv.1 hv.2, fun name _ e1 he1 => ⟨e1, he1, ?_⟩⟩
  obtain ⟨qs, t⟩ := e1
  obtain ⟨scheme, hget, htype, rfl⟩ := Context.find_eq_some.mp he1
  obtain ⟨hlt, hheader⟩ := hctx _ (Assoc.mem_of_get? hget)
  obtain ⟨hft, hq⟩ := hheader _ (Assoc.mem_of_get? htype)
  have hfit : t.Fits s1.size := hft.fits fun v hv => (hlt v (hq v hv)).trans_le hle1
  have hu : AliasTable.Usable [] := hal1 ▸ hr1.firstOrder.usable
  obtain ⟨m, hm⟩ := hu.exists_denotes θ1 t
  have hm2 : Denotes [] θ2 t m := hm.congr hu (hfit.restrict fun v hv => by
    have hv := hlt v (hq v hv)
    rw [hr1.reading.free v (h1.free v (hv.trans_le hle1)), h1.root,
      hr2.reading.free v (h2.free v (hv.trans_le hle2)), h2.root])
  obtain ⟨hleft, hmem⟩ := h1.quantified hr1 hft hq
    (fun q hq => (hlt q hq).trans_le hle1) hm
  obtain ⟨hright, _⟩ := h2.quantified hr2 hft hq
    (fun q hq => (hlt q hq).trans_le hle2) hm2
  have hself : m.renamed id = m :=
    (hr1.live hft hfit hm).plain.subst_eq_self fun _ _ => rfl
  refine ⟨m, id, ⟨hleft, by rw [hself]; exact hright, fun _ _ _ _ h => h, fun r hr => ?_⟩, ?_, ?_⟩
  · rw [id, htags r (hlt r (hmem r hr))]
  · exact fun r hr hv => absurd hv.1 (hlt r (hmem r hr)).not_ge
  · rw [hself]
    exact fun r hr hv => absurd hv.1 (hlt r (hmem r hr)).not_ge

/-! ## Programs -/

/-- The groups bind different names, and neither refers to a name of the other. -/
def Group.Independent (a b : Group) : Prop :=
  (∀ name ∈ defNames a.defs, name ∉ defNames b.defs) ∧
  (∀ o ∈ unboundDefs (defNames a.defs) a.defs, o.1 ∉ defNames b.defs) ∧
    ∀ o ∈ unboundDefs (defNames b.defs) b.defs, o.1 ∉ defNames a.defs

instance (a b : Group) : Decidable (a.Independent b) :=
  inferInstanceAs (Decidable (_ ∧ _ ∧ _))

variable {a b : Group}

theorem Group.Independent.symm (h : a.Independent b) : b.Independent a :=
  ⟨fun name hb ha => h.1 name ha hb, h.2.2, h.2.1⟩

namespace Generate

open Twins

variable {a b : Group} {pa pb : List Part}

theorem defines_of_belongs (ha : List.Forall₂ Belongs [a] pa) {name : String} :
    Defines pa name ↔ name ∈ defNames a.defs := by
  cases ha with
  | cons ha hnil =>
    cases hnil
    simp [Defines, ha.1]

theorem asks_of_belongs (ha : List.Forall₂ Belongs [a] pa) {p : Part} (hp : p ∈ pa)
    {o : Occurrence} (ho : o ∈ p.scheme.qualifier.unbound []) :
    o ∈ unboundDefs (defNames a.defs) a.defs := by
  cases ha with
  | cons ha hnil =>
    cases hnil
    rw [List.mem_singleton.mp hp] at ho
    exact ha.2 o ho

end Generate

/-- With this much fuel, the program gets types, and its bindings have the given ones. -/
def Program.Infers (program : Program) (env : Environment) (config : Config)
    (bindings : List (String × Polytype)) (fuel : Nat) : Prop :=
  ∃ nodeTypes, inferProgram fuel program env config = some (.ok ⟨bindings, nodeTypes⟩)

open Generate Twins in
theorem Program.Infers.swap {env : Environment} {config : Config} {pre post : List Group}
    (hind : a.Independent b) (hprogram : Program.plain ⟨pre ++ a :: b :: post⟩ = true)
    (henv : env.plain = true) {bindings : List (String × Polytype)} {fuel : Nat}
    (h : Program.Infers ⟨pre ++ a :: b :: post⟩ env config bindings fuel) :
    EnoughFuel (Program.Infers ⟨pre ++ b :: a :: post⟩ env config bindings) := by
  obtain ⟨nodeTypes, h⟩ := h
  obtain ⟨p, st, hp, hsolve, herr, hbindings, _⟩ := inferProgram_eq_ok h
  obtain ⟨table, ctx, s, c, g, htable, hctx, hgenerate, rfl⟩ := Prepared.ofProgram_eq_ok hp
  obtain ⟨schemes, g1, hgroups, hpure⟩ := bind_eq_ok hgenerate
  obtain ⟨rfl, rfl⟩ := pure_eq_ok hpure
  rw [Environment.aliasTable_of_plain henv] at htable
  cases htable
  have hspec := env.initialContext_spec { aliases := [] }
  rw [hctx] at hspec
  have hmakes := initialContext_makes (Environment.admits_of_plain henv) hctx
    (Store.untouched_empty [])
  obtain ⟨meant, hmeant⟩ := hmakes.places
  have hclosed := hmeant meant (fun _ _ _ => rfl) _ hmakes.untouched.madeAt
  have hchain := groups_chain _ hgroups hmakes.untouched rfl rfl
  obtain ⟨h', p0, pa, pb, p1, rfl, hs⟩ := exists_swapped henv hspec.2 hprogram hgroups
    hmakes.untouched
  obtain ⟨ctx', hrun⟩ := Solver.elaborates_of_solve hsolve rfl herr
  have hchain' := groups_chain _ hs.right hmakes.untouched rfl rfl
  obtain ⟨θ1, θ2, hinit⟩ := InStep.init hclosed (hchain.untouched.compress config.pathCompression)
    (hs.untouched.compress config.pathCompression) (hchain.aliases.trans hmakes.aliases)
    (hchain'.aliases.trans hmakes.aliases) hs.spans.le.1 hs.spans.le.2 hs.tags
    (fun v hv hv' => groups_inside hgroups hmakes.untouched hv hv')
    (fun v hv hv' => groups_inside hs.right hmakes.untouched hv hv')
  obtain ⟨g', θ1', θ2', Q1, Q2, hrun', hend⟩ := hinit.swap_between hs.spans.toParts
    hs.spans.owned hs.spans.named
    (fun name hna hnb => hind.1 name ((defines_of_belongs hs.belongLeft).mp hna)
      ((defines_of_belongs hs.belongRight).mp hnb))
    (fun p hp o ho hnb => hind.2.1 o (asks_of_belongs hs.belongLeft hp ho)
      ((defines_of_belongs hs.belongRight).mp hnb))
    (fun p hp o ho hna => hind.2.2 o (asks_of_belongs hs.belongRight hp ho)
      ((defines_of_belongs hs.belongLeft).mp hna)) hrun
  have hp' : Prepared.ofProgram ⟨pre ++ b :: a :: post⟩ env = .ok ⟨ctx,
      ((p0 ++ (pb ++ pa) ++ p1).map Part.twin).foldr Scheme.around .trivial, h'.nodeTypes, s.size,
      h'.store⟩ := by
    have hwalk : Generate.program env ⟨pre ++ b :: a :: post⟩ { store := s } =
        .ok (((p0 ++ (pb ++ pa) ++ p1).map Part.twin).foldr Scheme.around .trivial) h' :=
      bind_of_eq_ok hs.right rfl
    simp only [Prepared.ofProgram, Environment.aliasTable_of_plain henv, hctx, hwalk]
  have hnames : ∀ name,
      (∃ scheme ∈ (p0 ++ (pb ++ pa) ++ p1).map Part.twin, name ∈ Assoc.keys scheme.header) ↔
        ∃ scheme ∈ (p0 ++ (pa ++ pb) ++ p1).map Part.scheme, name ∈ Assoc.keys scheme.header := by
    intro name
    rw [exists_twin_iff, exists_scheme_iff]
    simp only [Defines, List.mem_append, or_comm (a := _ ∈ pb)]
  refine (inferProgram_of_elaborates hp' rfl hrun' hend.right.firstOrder).mono fun k hex => ?_
  obtain ⟨typed', hk, hb⟩ := hex
  have heq : typed'.bindings = bindings :=
    hend.bindings_eq hrun hrun' rfl rfl hnames hbindings hb
  exact ⟨typed'.nodeTypes, by rw [hk, ← heq]⟩

/-- Independent groups commute. In an environment and a program without records, two adjacent groups
that bind different names, neither of which refers to a name of the other, may stand in either
order: the one program gets types if and only if the other does, and then their bindings are the
same. -/
theorem infers_swap_iff {env : Environment} {config : Config} {pre post : List Group} {a b : Group}
    (hind : a.Independent b) (hprogram : Program.plain ⟨pre ++ a :: b :: post⟩ = true)
    (henv : env.plain = true) (bindings : List (String × Polytype)) :
    (∃ fuel, Program.Infers ⟨pre ++ a :: b :: post⟩ env config bindings fuel) ↔
      EnoughFuel (Program.Infers ⟨pre ++ b :: a :: post⟩ env config bindings) := by
  refine ⟨fun ⟨fuel, h⟩ => h.swap hind hprogram henv, fun h => ?_⟩
  have hprogram' : Program.plain ⟨pre ++ b :: a :: post⟩ = true := by
    simp only [Program.plain, List.all_append, List.all_cons, Bool.and_eq_true] at hprogram ⊢
    exact ⟨hprogram.1, hprogram.2.2.1, hprogram.2.1, hprogram.2.2.2⟩
  obtain ⟨fuel, hfuel⟩ := h.exists_fuel
  exact (hfuel.swap hind.symm hprogram' henv).exists_fuel

def firstOfTwo : Environment where
  values := [("first", .func (.var "a") (.func (.var "b") (.var "a")))]

def idAndTen : List Group := [
  ⟨[{ name := "id", params := [⟨{}, .var "x"⟩], span := {}, body := ⟨0, {}, .var "x"⟩ }]⟩,
  ⟨[{ name := "ten", params := [], span := {}, body := ⟨1, {}, .literal (.int 10)⟩ }]⟩]

def keep : Group :=
  ⟨[{ name := "keep", params := [⟨{}, .var "x"⟩], span := {},
      body := ⟨2, {}, .apply ⟨3, {}, .var "first"⟩
        [⟨4, {}, .apply ⟨5, {}, .var "id"⟩ [⟨6, {}, .var "x"⟩]⟩, ⟨7, {}, .var "ten"⟩]⟩ }]⟩

def tens : Group :=
  ⟨[{ name := "tens", params := [⟨{}, .var "keep"⟩], span := {},
      body := ⟨8, {}, .list [⟨9, {}, .apply ⟨10, {}, .var "id"⟩ [⟨11, {}, .var "ten"⟩]⟩,
        ⟨12, {}, .apply ⟨13, {}, .var "first"⟩ [⟨14, {}, .var "ten"⟩, ⟨15, {}, .var "keep"⟩]⟩]⟩ }]⟩

def keptTens : List Group := [
  ⟨[{ name := "main", params := [], span := {},
      body := ⟨16, {}, .apply ⟨17, {}, .var "keep"⟩
        [⟨18, {}, .apply ⟨19, {}, .var "tens"⟩ [⟨20, {}, .var "keep"⟩]⟩]⟩ }]⟩]

/-- Both orders give the same types. -/
theorem infers_swap_iff_keep_tens : ∃ bindings, keep.Independent tens ∧
    Program.plain ⟨idAndTen ++ keep :: tens :: keptTens⟩ = true ∧ firstOfTwo.plain = true ∧
    bindings.map (fun b => (b.1, b.2.vars, b.2.ty.text)) =
      [("id", ["a"], "a -> a"), ("keep", ["a"], "a -> a"), ("main", [], "List Int"),
        ("ten", [], "Int"), ("tens", ["b"], "b -> List Int")] ∧
    Program.Infers ⟨idAndTen ++ keep :: tens :: keptTens⟩ firstOfTwo {} bindings 30 ∧
    EnoughFuel (Program.Infers ⟨idAndTen ++ tens :: keep :: keptTens⟩ firstOfTwo {} bindings) := by
  have hind : keep.Independent tens := by decide
  have hprogram : Program.plain ⟨idAndTen ++ keep :: tens :: keptTens⟩ = true := by decide
  have henv : firstOfTwo.plain = true := by decide
  have hrun : ∃ typed,
      inferProgram 30 ⟨idAndTen ++ keep :: tens :: keptTens⟩ firstOfTwo {} = some (.ok typed) ∧
      typed.bindings.map (fun b => (b.1, b.2.vars, b.2.ty.text)) =
        [("id", ["a"], "a -> a"), ("keep", ["a"], "a -> a"), ("main", [], "List Int"),
          ("ten", [], "Int"), ("tens", ["b"], "b -> List Int")] := by
    generalize hrun : inferProgram 30 ⟨idAndTen ++ keep :: tens :: keptTens⟩ firstOfTwo {} = result
    cbv at hrun
    exact ⟨_, hrun.symm, by decide +kernel⟩
  obtain ⟨typed, hrun, htext⟩ := hrun
  have hinfers : Program.Infers ⟨idAndTen ++ keep :: tens :: keptTens⟩ firstOfTwo {}
      typed.bindings 30 := ⟨typed.nodeTypes, hrun⟩
  exact ⟨typed.bindings, hind, hprogram, henv, htext, hinfers,
    (infers_swap_iff hind hprogram henv typed.bindings).mp ⟨30, hinfers⟩⟩

/-! ## Records -/

namespace Moment

/-- A record behind which an integer stands. -/
def integerRow : Group :=
  ⟨[{ name := "r", params := [], span := {},
      body := ⟨0, {}, .apply ⟨1, {}, .var "f"⟩ [⟨2, {}, .literal (.int 3)⟩]⟩ }]⟩

def joinRow : Group :=
  ⟨[{ name := "join", params := [⟨{}, .var "p"⟩], span := {},
      body := ⟨3, {}, .case ⟨4, {}, .var "p"⟩ [⟨⟨{}, .record ["y"]⟩,
        ⟨5, {}, .case ⟨6, {}, .list [⟨7, {}, .var "y"⟩, ⟨8, {}, .literal (.int 1)⟩]⟩
          [⟨⟨{}, .wildcard⟩,
            ⟨9, {}, .list [⟨10, {}, .var "r"⟩, ⟨11, {}, .var "p"⟩]⟩, {}⟩]⟩, {}⟩]⟩ }]⟩

def testRow : Group :=
  ⟨[{ name := "test", params := [], span := {},
      body := ⟨12, {}, .ite ⟨13, {}, .access ⟨14, {}, .var "r"⟩ "y"⟩ ⟨15, {}, .literal (.int 1)⟩
        ⟨16, {}, .literal (.int 2)⟩⟩ }]⟩

/-- The groups are independent, and there are no aliases. In one order the program has a type error,
in the other it gets types. -/
theorem order_matters : fieldBefore.aliases = [] ∧ joinRow.Independent testRow ∧
    (∃ errors suppressed, inferProgram 30 ⟨[integerRow, joinRow, testRow]⟩ fieldBefore {} =
      some (.error (.types errors suppressed))) ∧
    ∃ typed,
      inferProgram 30 ⟨[integerRow, testRow, joinRow]⟩ fieldBefore {} = some (.ok typed) := by
  refine ⟨rfl, by decide, ?_, ?_⟩
  · generalize hrun : inferProgram 30 ⟨[integerRow, joinRow, testRow]⟩ fieldBefore {} = result
    cbv at hrun
    exact ⟨_, _, hrun.symm⟩
  · generalize hrun : inferProgram 30 ⟨[integerRow, testRow, joinRow]⟩ fieldBefore {} = result
    cbv at hrun
    exact ⟨_, hrun.symm⟩

end Moment
end TypeSolver
