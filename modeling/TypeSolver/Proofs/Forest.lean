import Mathlib.Data.Finset.Card
import TypeSolver.Proofs.Terms
import TypeSolver.Proofs.Views

/-!
# TypeSolver.Proofs.Forest

The links of a store form a forest. `Forest` says that every path of links ends, and that links
stay inside the store; under it `root` is the end of the path (`Path.root_eq`), although the
definition only follows as many links as the store has variables. Most of what is said here needs
only that paths end (`LinksEnd`), also where variables lie outside the store.

The rest says what each write does to `root` and `content`, the two functions through which a
store is read: `find` changes neither, `put` changes the content of one class, `link` puts one
class under another, and `fresh` adds a class.
-/

namespace TypeSolver

/-- What a class stands for, without its rank and hint. -/
inductive Kind where
  | free
  | bound (t : Ty)
  | poisoned

def Content.kind : Content → Kind
  | .unbound _ _ => .free
  | .bound t => .bound t
  | .poisoned => .poisoned

/-- The content with a rank of at most `rank`, if it has one. -/
def Content.lowered (rank : Rank) : Content → Content
  | .unbound current hint => .unbound (min current rank) hint
  | c => c

theorem Content.lowered_lowered (rank : Rank) (c : Content) :
    (c.lowered rank).lowered rank = c.lowered rank := by
  cases c <;> simp [Content.lowered]

namespace Store

def kind (s : Store) (v : Var) : Kind := (s.content v).kind

/-- From `v`, following `n` links leads to `r`, where the links end. -/
inductive Path (slots : Array Slot) : Nat → Var → Var → Prop where
  | here {v : Var} : (∀ w, slots[v]? ≠ some (.link w)) → Path slots 0 v v
  | next {n : Nat} {v w r : Var} : slots[v]? = some (.link w) → Path slots n w r →
      Path slots (n + 1) v r

namespace Path

variable {slots slots' : Array Slot} {n n' : Nat} {v w r r' : Var}

section

variable (h : Path slots n v r)

include h

theorem unique (h' : Path slots n' v r') : n = n' ∧ r = r' := by
  induction h generalizing n' with
  | here hv =>
    cases h' with
    | here _ => exact ⟨rfl, rfl⟩
    | next hl _ => exact absurd hl (hv _)
  | next hl _ ih =>
    cases h' with
    | here hv => exact absurd hl (hv _)
    | next hl' h' =>
      rw [hl] at hl'
      cases hl'
      obtain ⟨rfl, rfl⟩ := ih h'
      exact ⟨rfl, rfl⟩

theorem not_link : ∀ w, slots[r]? ≠ some (.link w) := by
  induction h with
  | here hv => exact hv
  | next _ _ ih => exact ih

theorem refl_of_end : Path slots 0 r r := .here h.not_link

theorem exists_nodup : ∃ l : List Var, l.length = n ∧ l.Nodup ∧
      ∀ x ∈ l, x < slots.size ∧ ∃ m ≤ n, Path slots m x r := by
  induction h with
  | here _ => exact ⟨[], rfl, .nil, by simp⟩
  | @next n v w r hl hp ih =>
    obtain ⟨l, hlen, hnd, hl'⟩ := ih
    have hv : v ∉ l := by
      intro hmem
      obtain ⟨_, m, hm, hp'⟩ := hl' v hmem
      have := (hp'.unique (.next hl hp)).1
      omega
    refine ⟨v :: l, by simp [hlen], List.nodup_cons.mpr ⟨hv, hnd⟩, ?_⟩
    intro x hx
    rcases List.mem_cons.mp hx with rfl | hx
    · exact ⟨(Array.getElem?_eq_some_iff.mp hl).1, n + 1, le_refl _, .next hl hp⟩
    · obtain ⟨hlt, m, hm, hp'⟩ := hl' x hx
      exact ⟨hlt, m, by omega, hp'⟩

theorem length_le : n ≤ slots.size := by
  obtain ⟨l, rfl, hnd, hl⟩ := h.exists_nodup
  have hsub : l.toFinset ⊆ Finset.range slots.size := by
    intro x hx
    rw [List.mem_toFinset] at hx
    exact Finset.mem_range.mpr (hl x hx).1
  calc l.length = l.toFinset.card := (List.toFinset_card_of_nodup hnd).symm
    _ ≤ (Finset.range slots.size).card := Finset.card_le_card hsub
    _ = slots.size := Finset.card_range _

theorem follow_eq {fuel : Nat} (hf : n ≤ fuel) : follow slots fuel v = r := by
  induction h generalizing fuel with
  | here hv =>
    cases fuel with
    | zero => rfl
    | succ fuel =>
      rw [follow]
      split
      · rename_i w hw; exact absurd hw (hv w)
      · rfl
  | next hl _ ih =>
    cases fuel with
    | zero => omega
    | succ fuel =>
      rw [follow]
      simp only [hl]
      exact ih (by omega)

end

theorem root_eq {s : Store} (h : Path s.slots n v r) : s.root v = r := h.follow_eq h.length_le

/-- If following links leads to a root, they end there. -/
theorem of_follow {fuel : Nat} {c : Content}
    (h : slots[follow slots fuel v]? = some (.root c)) : ∃ n, Path slots n v (follow slots fuel v) := by
  have hroot : ∀ {x : Var}, slots[x]? = some (.root c) → ∃ n, Path slots n x x := fun hx =>
    ⟨0, .here fun w hw => by rw [hx] at hw; cases hw⟩
  induction fuel generalizing v with
  | zero => exact hroot h
  | succ fuel ih =>
    rw [follow] at h ⊢
    split at h
    · rename_i next hnext
      obtain ⟨n, hn⟩ := ih h
      exact ⟨n + 1, .next hnext hn⟩
    · exact hroot h

theorem congr (hs : ∀ x w : Var, slots'[x]? = some (.link w) ↔ slots[x]? = some (.link w))
    (h : Path slots n v r) : Path slots' n v r := by
  induction h with
  | here hv => exact .here fun w hw => hv w ((hs _ w).mp hw)
  | next hl _ ih => exact .next ((hs _ _).mpr hl) ih

theorem shortcut {k : Nat} (hk : Path slots (k + 1) w r') (h : Path slots n v r) :
    ∃ m, Path (slots.setIfInBounds w (.link r')) m v r := by
  have hw : w < slots.size := by
    cases hk with
    | next hl _ => exact (Array.getElem?_eq_some_iff.mp hl).1
  have hne : w ≠ r' := by
    rintro rfl
    have := (hk.unique hk.refl_of_end).1
    omega
  induction h with
  | @here v hv =>
    refine ⟨0, .here fun x hx => ?_⟩
    rw [Array.getElem?_setIfInBounds] at hx
    split at hx
    · rename_i hwv; subst hwv
      cases hk with
      | next hl _ => exact hv _ hl
    · exact hv x hx
  | @next n v x r hl hp ih =>
    obtain ⟨m, hm⟩ := ih
    by_cases hwv : w = v
    · subst hwv
      have hr : r' = r := (hk.unique (.next hl hp)).2
      subst hr
      have hend : Path (slots.setIfInBounds w (.link r')) 0 r' r' := by
        refine .here fun y hy => ?_
        rw [Array.getElem?_setIfInBounds, if_neg hne] at hy
        exact hk.not_link y hy
      refine ⟨1, .next ?_ hend⟩
      rw [Array.getElem?_setIfInBounds, if_pos rfl, if_pos hw]
    · refine ⟨m + 1, .next ?_ hm⟩
      rw [Array.getElem?_setIfInBounds, if_neg hwv]
      exact hl

theorem end_lt (hin : ∀ v w : Var, slots[v]? = some (.link w) → w < slots.size)
    (h : Path slots n v r) (hv : v < slots.size) : r < slots.size := by
  induction h with
  | here _ => exact hv
  | next hl _ ih => exact ih (hin _ _ hl)

end Path

def LinksEnd (s : Store) : Prop := ∀ v, ∃ n r, Path s.slots n v r

namespace LinksEnd

variable {s : Store}

theorem path (h : s.LinksEnd) (v : Var) : ∃ n, Path s.slots n v (s.root v) := by
  obtain ⟨n, r, hp⟩ := h v
  rw [hp.root_eq]
  exact ⟨n, hp⟩

theorem root_root (h : s.LinksEnd) (v : Var) : s.root (s.root v) = s.root v := by
  obtain ⟨n, hp⟩ := h.path v
  exact hp.refl_of_end.root_eq

theorem content_root (h : s.LinksEnd) (v : Var) : s.content (s.root v) = s.content v := by
  simp only [content, h.root_root]

theorem not_link (h : s.LinksEnd) {r : Var} (hr : s.root r = r) (w : Var) :
    s.slots[r]? ≠ some (.link w) := by
  obtain ⟨n, hp⟩ := h.path r
  rw [hr] at hp
  exact hp.not_link w

/-- If all paths have an end, these ends are the roots. -/
theorem of_paths {f : Var → Var} (hp : ∀ v, ∃ n, Path s.slots n v (f v)) :
    s.LinksEnd ∧ ∀ v, s.root v = f v := by
  refine ⟨fun v => ?_, fun v => ?_⟩
  · obtain ⟨n, h⟩ := hp v
    exact ⟨n, f v, h⟩
  · obtain ⟨n, h⟩ := hp v
    exact h.root_eq

end LinksEnd

structure Forest (s : Store) : Prop where
  ends : ∀ v, ∃ n r, Path s.slots n v r
  inside : ∀ v w : Var, s.slots[v]? = some (.link w) → w < s.size

namespace Forest

variable {s : Store}

theorem linksEnd (h : s.Forest) : s.LinksEnd := h.ends

theorem path (h : s.Forest) (v : Var) : ∃ n, Path s.slots n v (s.root v) := h.linksEnd.path v

@[simp] theorem root_root (h : s.Forest) (v : Var) : s.root (s.root v) = s.root v :=
  h.linksEnd.root_root v

@[simp] theorem content_root (h : s.Forest) (v : Var) : s.content (s.root v) = s.content v :=
  h.linksEnd.content_root v

theorem root_lt (h : s.Forest) {v : Var} (hv : v < s.size) : s.root v < s.size := by
  obtain ⟨n, hp⟩ := h.path v
  exact hp.end_lt h.inside hv

theorem root_of_size_le {v : Var} (hv : s.size ≤ v) :
    s.root v = v ∧ s.content v = .poisoned := by
  have hn : s.slots[v]? = none := Array.getElem?_eq_none hv
  have hp : Path s.slots 0 v v := .here fun w hw => by rw [hn] at hw; cases hw
  have hroot := hp.root_eq
  exact ⟨hroot, by rw [content, hroot, hn]⟩

end Forest

theorem forest_empty (table : AliasTable) (c : Bool) :
    ({ aliases := table, compress := c } : Store).Forest :=
  ⟨fun v => ⟨0, v, .here (by simp)⟩, by simp⟩

/-! ## Compression -/

/-- `slots'` is `slots` with some links shortened. -/
structure Shortened (slots slots' : Array Slot) : Prop where
  size : slots'.size = slots.size
  paths : ∀ {n v r}, Path slots n v r → ∃ m, Path slots' m v r
  roots : ∀ (r : Var) (c : Content), slots[r]? = some (.root c) → slots'[r]? = some (.root c)
  inside : (∀ v w : Var, slots[v]? = some (.link w) → w < slots.size) →
    ∀ v w : Var, slots'[v]? = some (.link w) → w < slots'.size

theorem Shortened.refl (slots : Array Slot) : Shortened slots slots :=
  ⟨rfl, fun h => ⟨_, h⟩, fun _ _ h => h, fun h => h⟩

variable {r v : Var} {s : Store}

theorem relink_shortened : ∀ (fuel : Nat) {v : Var} {slots : Array Slot} {n : Nat},
    Path slots n v r → Shortened slots (relink r fuel v slots) := by
  intro fuel
  induction fuel with
  | zero => intro v slots n _; exact .refl slots
  | succ fuel ih =>
    intro v slots n hp
    cases hp with
    | here hv =>
      have : relink r (fuel + 1) r slots = slots := by
        rw [relink]
        split
        · rename_i w hw; exact absurd hw (hv w)
        · rfl
      rw [this]
      exact .refl slots
    | @next n _ w _ hl hp =>
      have hstep : relink r (fuel + 1) v slots =
          relink r fuel w (slots.setIfInBounds v (.link r)) := by
        rw [relink]; simp only [hl]
      obtain ⟨m, hw⟩ := (Path.next hl hp).shortcut hp
      have hrec := ih hw
      rw [hstep]
      refine ⟨by simpa using hrec.size, fun h => ?_, fun x c hx => ?_, fun hin x y hx => ?_⟩
      · obtain ⟨k, hk⟩ := (Path.next hl hp).shortcut h
        exact hrec.paths hk
      · refine hrec.roots x c ?_
        have hne : v ≠ x := by rintro rfl; rw [hl] at hx; cases hx
        rw [Array.getElem?_setIfInBounds, if_neg hne]
        exact hx
      · refine hrec.inside (fun a b hab => ?_) x y hx
        rw [Array.getElem?_setIfInBounds] at hab
        split at hab
        · split at hab
          · cases hab; simpa using hp.end_lt hin (hin v w hl)
          · cases hab
        · simpa using hin a b hab

/-! ## Reading -/

section Find

variable {s : Store}

theorem find_fst (s : Store) (v : Var) : (s.find v).1 = s.root v := by
  rw [find]; split <;> rfl

@[simp] theorem find_aliases (s : Store) (v : Var) : (s.find v).2.aliases = s.aliases := by
  rw [find]; split <;> rfl

theorem find_shortened (h : s.LinksEnd) (v : Var) : Shortened s.slots (s.find v).2.slots := by
  obtain ⟨n, hp⟩ := h.path v
  rw [find]
  split
  · exact relink_shortened s.size hp
  · exact .refl s.slots

theorem LinksEnd.find_size (h : s.LinksEnd) (v : Var) : (s.find v).2.size = s.size :=
  (find_shortened h v).size

theorem LinksEnd.find_view (h : s.LinksEnd) (v : Var) :
    (s.find v).2.LinksEnd ∧ (∀ w, (s.find v).2.root w = s.root w) ∧
      ∀ w, (s.find v).2.content w = s.content w := by
  have hs := find_shortened h v
  obtain ⟨he, hr⟩ := LinksEnd.of_paths (s := (s.find v).2) (f := s.root)
    (fun w => by obtain ⟨n, hp⟩ := h.path w; exact hs.paths hp)
  refine ⟨he, hr, fun w => ?_⟩
  rw [content, hr, content]
  cases hw : s.slots[s.root w]? with
  | none =>
    have hn : (s.find v).2.slots[s.root w]? = none := by
      rw [Array.getElem?_eq_none_iff] at hw ⊢
      rw [hs.size]
      exact hw
    rw [hn]
  | some slot =>
    cases slot with
    | link x => exact absurd hw (h.not_link (h.root_root w) x)
    | root c => rw [hs.roots _ _ hw]

variable (h : s.Forest)

include h

@[simp] theorem find_size (_ : v < s.size) : (s.find v).2.size = s.size := h.linksEnd.find_size v

theorem find_view (_ : v < s.size) : (s.find v).2.Forest ∧ (∀ w, (s.find v).2.root w = s.root w) ∧
      ∀ w, (s.find v).2.content w = s.content w := by
  obtain ⟨he, hr, hc⟩ := h.linksEnd.find_view v
  exact ⟨⟨he, (find_shortened h.linksEnd v).inside h.inside⟩, hr, hc⟩

theorem find_forest (hv : v < s.size) : (s.find v).2.Forest :=
  (find_view h hv).1

@[simp] theorem find_root (hv : v < s.size) (w : Var) :
    (s.find v).2.root w = s.root w := (find_view h hv).2.1 w

@[simp] theorem find_content (hv : v < s.size) (w : Var) :
    (s.find v).2.content w = s.content w := (find_view h hv).2.2 w

end Find

/-! ## Writing -/

section Write

variable {s : Store}

@[simp] theorem put_size (s : Store) (r : Var) (c : Content) : (s.put r c).size = s.size := by
  simp [put, size]

@[simp] theorem put_aliases (s : Store) (r : Var) (c : Content) :
    (s.put r c).aliases = s.aliases := rfl

@[simp] theorem link_size (s : Store) (a b : Var) : (s.link a b).size = s.size := by
  simp [link, size]

@[simp] theorem link_aliases (s : Store) (a b : Var) : (s.link a b).aliases = s.aliases := rfl

theorem getElem?_setIfInBounds_eq (slots : Array Slot) (r x : Var) (slot : Slot) :
    (slots.setIfInBounds r slot)[x]? = if r = x ∧ r < slots.size then some slot else slots[x]? := by
  rw [Array.getElem?_setIfInBounds]
  by_cases hx : r = x
  · subst hx
    by_cases hr : r < slots.size
    · rw [if_pos rfl, if_pos hr, if_pos ⟨rfl, hr⟩]
    · rw [if_pos rfl, if_neg hr, if_neg fun h => hr h.2,
        Array.getElem?_eq_none (Nat.le_of_not_lt hr)]
  · rw [if_neg hx, if_neg fun h => hx h.1]

theorem put_slot (s : Store) (r x : Var) (c : Content) : (s.put r c).slots[x]? =
    if r = x ∧ r < s.size then some (.root c) else s.slots[x]? :=
  getElem?_setIfInBounds_eq ..

theorem link_slot (s : Store) (a b x : Var) : (s.link a b).slots[x]? =
    if a = x ∧ a < s.size then some (.link b) else s.slots[x]? :=
  getElem?_setIfInBounds_eq ..

theorem put_links (hr : ∀ w, s.slots[r]? ≠ some (.link w)) (c : Content) (x w : Var) :
    (s.put r c).slots[x]? = some (.link w) ↔ s.slots[x]? = some (.link w) := by
  rw [put_slot]
  split
  · rename_i hx
    rw [← hx.1]
    simp [hr w]
  · rfl

theorem LinksEnd.put_view (h : s.LinksEnd) (hroot : s.root r = r) (c : Content) :
    (s.put r c).LinksEnd ∧ (∀ v, (s.put r c).root v = s.root v) ∧
      ∀ v, (s.put r c).content v = if s.root v = r ∧ r < s.size then c else s.content v := by
  obtain ⟨he, hro⟩ := LinksEnd.of_paths (s := s.put r c) (f := s.root) fun v => by
    obtain ⟨n, hp⟩ := h.path v
    exact ⟨n, hp.congr (put_links (h.not_link hroot) c)⟩
  refine ⟨he, hro, fun v => ?_⟩
  rw [content, hro, put_slot]
  by_cases hv : s.root v = r ∧ r < s.size
  · rw [if_pos hv, if_pos ⟨hv.1.symm, hv.2⟩]
  · rw [if_neg hv, if_neg fun h => hv ⟨h.1.symm, h.2⟩, content]

theorem put_view (h : s.Forest) (hr : r < s.size) (hroot : s.root r = r) (c : Content) :
    (s.put r c).Forest ∧ (∀ v, (s.put r c).root v = s.root v) ∧
      ∀ v, (s.put r c).content v = if s.root v = r then c else s.content v := by
  obtain ⟨he, hro, hc⟩ := h.linksEnd.put_view hroot c
  refine ⟨⟨he, fun v w hw => ?_⟩, hro, fun v => by rw [hc]; simp only [hr, and_true]⟩
  rw [put_size]
  exact h.inside v w ((put_links (h.linksEnd.not_link hroot) c v w).mp hw)

theorem LinksEnd.link_view (h : s.LinksEnd) {a b : Var} (hra : s.root a = a) (hrb : s.root b = b)
    (hab : a ≠ b) : (s.link a b).LinksEnd ∧
      (∀ v, (s.link a b).root v = if s.root v = a ∧ a < s.size then b else s.root v) ∧
      ∀ v, (s.link a b).content v =
        if s.root v = a ∧ a < s.size then s.content b else s.content v := by
  have hpath : ∀ {n v r}, Path s.slots n v r →
      ∃ m, Path (s.link a b).slots m v (if r = a ∧ a < s.size then b else r) := by
    intro n v r hp
    induction hp with
    | @here v hv =>
      split
      · rename_i hva
        obtain ⟨rfl, ha⟩ := hva
        have hend : Path (s.link v b).slots 0 b b := by
          refine .here fun w hw => h.not_link hrb w ?_
          rwa [link_slot, if_neg fun h => hab h.1] at hw
        exact ⟨1, .next (by rw [link_slot, if_pos ⟨rfl, ha⟩]) hend⟩
      · rename_i hva
        refine ⟨0, .here fun w hw => hv w ?_⟩
        rwa [link_slot, if_neg fun h => hva ⟨h.1.symm, h.2⟩] at hw
    | @next n v w r hl hp ih =>
      obtain ⟨m, hm⟩ := ih
      have hva : a ≠ v := by rintro rfl; exact h.not_link hra w hl
      exact ⟨m + 1, .next (by rw [link_slot, if_neg fun h => hva h.1]; exact hl) hm⟩
  obtain ⟨he, hro⟩ := LinksEnd.of_paths (s := s.link a b)
    (f := fun v => if s.root v = a ∧ a < s.size then b else s.root v)
    (fun v => by obtain ⟨n, hp⟩ := h.path v; exact hpath hp)
  refine ⟨he, hro, fun v => ?_⟩
  rw [content, hro]
  by_cases hv : s.root v = a ∧ a < s.size
  · rw [if_pos hv, if_pos hv, link_slot, if_neg fun h => hab h.1, content, hrb]
  · rw [if_neg hv, if_neg hv, link_slot, if_neg fun h => hv ⟨h.1.symm, h.2⟩, content]

theorem link_view (h : s.Forest) {a b : Var} (ha : a < s.size) (hb : b < s.size)
    (hra : s.root a = a) (hrb : s.root b = b) (hab : a ≠ b) :
    (s.link a b).Forest ∧ (∀ v, (s.link a b).root v = if s.root v = a then b else s.root v) ∧
      ∀ v, (s.link a b).content v = if s.root v = a then s.content b else s.content v := by
  obtain ⟨he, hro, hc⟩ := h.linksEnd.link_view hra hrb hab
  simp only [ha, and_true] at hro hc
  refine ⟨⟨he, fun v w hw => ?_⟩, hro, hc⟩
  rw [link_slot] at hw
  rw [link_size]
  split at hw
  · cases hw; exact hb
  · exact h.inside v w hw

@[simp] theorem fresh_size (s : Store) (rank : Rank) (hint : Option String) :
    (s.fresh rank hint).2.size = s.size + 1 := by simp [fresh, size]

@[simp] theorem fresh_aliases (s : Store) (rank : Rank) (hint : Option String) :
    (s.fresh rank hint).2.aliases = s.aliases := rfl

theorem fresh_slot (s : Store) (rank : Rank) (hint : Option String) (x : Var) :
    (s.fresh rank hint).2.slots[x]? =
      if x = s.size then some (.root (.unbound rank hint)) else s.slots[x]? := by
  show (s.slots.push _)[x]? = _
  rw [Array.getElem?_push]
  rfl

theorem fresh_links (s : Store) (rank : Rank) (hint : Option String) (x w : Var) :
    (s.fresh rank hint).2.slots[x]? = some (.link w) ↔ s.slots[x]? = some (.link w) := by
  rw [fresh_slot]
  by_cases hx : x = s.size
  · have hn : s.slots[x]? = none := Array.getElem?_eq_none (by rw [hx]; exact le_rfl)
    rw [if_pos hx, hn]
    simp
  · rw [if_neg hx]

theorem LinksEnd.fresh_view (h : s.LinksEnd) (rank : Rank) (hint : Option String) :
    (s.fresh rank hint).2.LinksEnd ∧ (∀ v, (s.fresh rank hint).2.root v = s.root v) ∧
      ∀ v, (s.fresh rank hint).2.content v =
        if s.root v = s.size then .unbound rank hint else s.content v := by
  obtain ⟨he, hro⟩ := LinksEnd.of_paths (s := (s.fresh rank hint).2) (f := s.root) fun v => by
    obtain ⟨n, hp⟩ := h.path v
    exact ⟨n, hp.congr (fresh_links s rank hint)⟩
  refine ⟨he, hro, fun v => ?_⟩
  rw [content, hro, fresh_slot]
  by_cases hv : s.root v = s.size
  · rw [if_pos hv, if_pos hv]
  · rw [if_neg hv, if_neg hv, content]

theorem fresh_view (h : s.Forest) (rank : Rank) (hint : Option String) :
    (s.fresh rank hint).2.Forest ∧ (∀ v, (s.fresh rank hint).2.root v = s.root v) ∧
      ∀ v, (s.fresh rank hint).2.content v =
        if v = s.size then .unbound rank hint else s.content v := by
  obtain ⟨he, hro, hc⟩ := h.linksEnd.fresh_view rank hint
  refine ⟨⟨he, fun v w hw => ?_⟩, hro, fun v => ?_⟩
  · rw [fresh_size]
    exact Nat.lt_succ_of_lt (h.inside v w ((fresh_links s rank hint v w).mp hw))
  · have hiff : s.root v = s.size ↔ v = s.size := by
      rcases Nat.lt_or_ge v s.size with hlt | hge
      · exact iff_of_false (Nat.ne_of_lt (h.root_lt hlt)) (Nat.ne_of_lt hlt)
      · rw [(Forest.root_of_size_le hge).1]
    rw [hc]
    simp only [hiff]

theorem poison_view (h : s.Forest) (hv : v < s.size) :
    (s.poison v).Forest ∧ (∀ w, (s.poison v).root w = s.root w) ∧
      ∀ w, (s.poison v).content w = if s.root w = s.root v then .poisoned else s.content w := by
  obtain ⟨hf, hr, hc⟩ := find_view h hv
  have hlt : s.root v < (s.find v).2.size := by rw [find_size h hv]; exact h.root_lt hv
  have hroot : (s.find v).2.root (s.root v) = s.root v := by rw [hr, h.root_root]
  have heq : s.poison v = (s.find v).2.put (s.root v) .poisoned := by
    rw [← find_fst s v]; rfl
  obtain ⟨hf', hr', hc'⟩ := put_view hf hlt hroot .poisoned
  rw [heq]
  exact ⟨hf', fun w => by rw [hr', hr], fun w => by rw [hc', hr, hc]⟩

@[simp] theorem poison_size (h : s.Forest) (hv : v < s.size) : (s.poison v).size = s.size := by
  show ((s.find v).2.put (s.find v).1 .poisoned).size = _
  rw [put_size, find_size h hv]

@[simp] theorem poison_aliases (s : Store) (v : Var) : (s.poison v).aliases = s.aliases := by
  show ((s.find v).2.put (s.find v).1 .poisoned).aliases = _
  rw [put_aliases, find_aliases]

end Write

/-! ## Stores that differ in ranks and hints only -/

/-- The stores have the same classes, and each stands for the same. -/
structure Alike (s s' : Store) : Prop where
  size : s'.size = s.size
  aliases : s'.aliases = s.aliases
  root : ∀ v, s'.root v = s.root v
  kind : ∀ v, s'.kind v = s.kind v

namespace Alike

theorem refl (s : Store) : Alike s s := ⟨rfl, rfl, fun _ => rfl, fun _ => rfl⟩

theorem trans {s1 s2 s3 : Store} (h : Alike s1 s2) (h' : Alike s2 s3) : Alike s1 s3 :=
  ⟨h'.size.trans h.size, h'.aliases.trans h.aliases, fun v => (h'.root v).trans (h.root v),
    fun v => (h'.kind v).trans (h.kind v)⟩

end Alike

variable (h : s.Forest)

include h

theorem find_alike (hv : v < s.size) : Alike s (s.find v).2 :=
  ⟨find_size h hv, find_aliases s v, find_root h hv, fun w => by rw [kind, find_content h hv, kind]⟩

theorem put_unbound_alike (hr : r < s.size) (hroot : s.root r = r) (hk : s.kind r = .free)
    (rank : Rank) (hint : Option String) :
    (s.put r (.unbound rank hint)).Forest ∧ Alike s (s.put r (.unbound rank hint)) := by
  obtain ⟨hf, hro, hcon⟩ := put_view h hr hroot (.unbound rank hint)
  refine ⟨hf, put_size .., put_aliases .., hro, fun w => ?_⟩
  rw [kind, hcon]
  split
  · rename_i hw
    rw [kind, ← h.content_root w, hw]
    exact hk.symm
  · rfl

theorem lowerRank_alike (rank : Rank) (v : Var) :
    (lowerRank rank s v).Forest ∧ Alike s (lowerRank rank s v) := by
  rw [lowerRank]
  split
  · rename_i current hint hc
    have hv : v < s.size := by
      by_contra hv
      rw [(Forest.root_of_size_le (Nat.le_of_not_lt hv)).2] at hc
      cases hc
    split
    · refine put_unbound_alike h (h.root_lt hv) (h.root_root v) ?_ rank hint
      rw [kind, h.content_root, hc]
      rfl
    · exact ⟨h, .refl s⟩
  · exact ⟨h, .refl s⟩

theorem lowerRanks_alike (rank : Rank) (vs : List Var) :
    (s.lowerRanks vs rank).Forest ∧ Alike s (s.lowerRanks vs rank) := by
  induction vs generalizing s with
  | nil => exact ⟨h, .refl s⟩
  | cons v vs ih =>
    obtain ⟨hf, ha⟩ := lowerRank_alike h rank v
    obtain ⟨hf', ha'⟩ := ih hf
    exact ⟨hf', ha.trans ha'⟩

theorem lowerRank_content (rank : Rank) (hv : v < s.size) (w : Var) :
    (lowerRank rank s v).content w =
      if s.root v = s.root w then (s.content w).lowered rank else s.content w := by
  have hput := fun c => (put_view h (h.root_lt hv) (h.root_root v) c).2.2 w
  rw [lowerRank]
  by_cases hw : s.root v = s.root w
  · have hc : s.content w = s.content v := by rw [← h.content_root w, ← hw, h.content_root]
    rw [if_pos hw]
    split
    · rename_i current hint hcv
      rw [hc, hcv, Content.lowered]
      split
      · rename_i hlt
        rw [hput, if_pos hw.symm, Nat.min_eq_right (hlt.le)]
      · rename_i hge
        rw [hc, hcv, Nat.min_eq_left (Nat.le_of_not_lt hge)]
    · rename_i hne
      rw [hc]
      cases hcv : s.content v with
      | unbound current hint => exact absurd hcv (hne current hint)
      | bound t => rfl
      | poisoned => rfl
  · rw [if_neg hw]
    split
    · split
      · rw [hput, if_neg (Ne.symm hw)]
      · rfl
    · rfl

theorem lowerRanks_content (rank : Rank) {vs : List Var} (hvs : ∀ v ∈ vs, v < s.size) (w : Var) :
    (s.lowerRanks vs rank).content w =
      if ∃ v ∈ vs, s.root v = s.root w then (s.content w).lowered rank else s.content w := by
  induction vs generalizing s with
  | nil => simp [lowerRanks]
  | cons v vs ih =>
    have hv := hvs v (by simp)
    obtain ⟨hf, ha⟩ := lowerRank_alike h rank v
    have hrest := ih hf fun x hx => by rw [ha.size]; exact hvs x (by simp [hx])
    show ((lowerRank rank s v).lowerRanks vs rank).content w = _
    rw [hrest, lowerRank_content h rank hv]
    simp only [ha.root, List.mem_cons, exists_eq_or_imp]
    by_cases hvw : s.root v = s.root w <;> by_cases hex : ∃ x ∈ vs, s.root x = s.root w <;>
      simp [hvw, hex, Content.lowered_lowered]

end Store
end TypeSolver
