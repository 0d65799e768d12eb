import Mathlib.Data.List.Forall2
import Mathlib.Data.String.Basic
import TypeSolver.Assoc

/-!
# TypeSolver.Proofs.Fields

The theory of maps in increasing order of key, as records use them.

* `Sorted.ext`: a sorted map is determined by what it gives to each key.
* `get?_union`, `get?_without`: the operations in terms of lookup; with `Sorted.ext` they give
  every equation between maps, such as `union_assoc` and `union_without_comm`.
* `Related.union`: insertion looks at keys only, so maps that are related entry by entry stay so.
-/

namespace TypeSolver

variable {α β γ : Type}

variable {R : α → β → Prop} {xs : List α} {ys : List β} {zs : List γ}

theorem exists_of_forall₂_right (h : List.Forall₂ R xs ys) {y : β} (hy : y ∈ ys) :
    ∃ x ∈ xs, R x y := by
  induction h with
  | nil => cases hy
  | @cons x y' xs ys hxy _ ih =>
    rcases List.mem_cons.mp hy with rfl | hy
    · exact ⟨x, by simp, hxy⟩
    · obtain ⟨z, hz, hR⟩ := ih hy
      exact ⟨z, by simp [hz], hR⟩

theorem exists_of_forall₂_left (h : List.Forall₂ R xs ys) {x : α} (hx : x ∈ xs) : ∃ y ∈ ys, R x y :=
  exists_of_forall₂_right (List.Forall₂.flip h) hx

theorem forall₂_of_mem {P : α → Prop} (h : List.Forall₂ (fun x y => P x → R x y) xs ys)
    (hP : ∀ x ∈ xs, P x) : List.Forall₂ R xs ys := by
  induction h with
  | nil => exact .nil
  | cons hxy _ ih => exact .cons (hxy (hP _ (by simp))) (ih fun x hx => hP x (by simp [hx]))

theorem forall₂_unique {ys' : List β} (h : List.Forall₂ (fun x y => ∀ y', R x y' → y = y') xs ys)
    (h' : List.Forall₂ R xs ys') : ys = ys' := by
  induction h generalizing ys' with
  | nil => cases h'; rfl
  | cons hxy _ ih =>
    cases h' with
    | cons hxy' h' => rw [hxy _ hxy', ih h']

theorem forall₂_of_forall₂ {S : α → γ → Prop} {T : β → γ → Prop} (h : List.Forall₂ R xs ys)
    (h' : List.Forall₂ S xs zs) (hT : ∀ x ∈ xs, ∀ y z, R x y → S x z → T y z) :
    List.Forall₂ T ys zs := by
  induction h generalizing zs with
  | nil => cases h'; exact .nil
  | cons hxy _ ih =>
    cases h' with
    | cons hxz h' =>
      exact .cons (hT _ (by simp) _ _ hxy hxz) (ih h' fun x hx => hT x (by simp [hx]))

theorem forall₂_of_zip (hlen : xs.length = ys.length) (h : ∀ x y, (x, y) ∈ xs.zip ys → R x y) :
    List.Forall₂ R xs ys :=
  List.forall₂_iff_zip.mpr ⟨hlen, fun hp => h _ _ hp⟩

theorem exists_getElem?_of_forall₂ (h : List.Forall₂ R xs ys) {i : Nat} {y : β}
    (hy : ys[i]? = some y) : ∃ x, xs[i]? = some x ∧ R x y := by
  induction h generalizing i with
  | nil => simp at hy
  | @cons x y' xs ys hxy _ ih =>
    cases i with
    | zero => cases hy; exact ⟨x, rfl, hxy⟩
    | succ i => exact ih hy

theorem eq_of_map_eq {f : α → β} {ys : List α} (hf : ∀ x ∈ xs, ∀ y, f x = f y → x = y)
    (h : xs.map f = ys.map f) : xs = ys := by
  induction xs generalizing ys with
  | nil => simpa using h
  | cons x xs ih =>
    cases ys with
    | nil => simp at h
    | cons y ys =>
      simp only [List.map_cons, List.cons.injEq] at h
      rw [hf x (by simp) y h.1, ih (fun z hz => hf z (by simp [hz])) h.2]

theorem exists_map_of_forall₂ {f : β → γ}
    (h : List.Forall₂ (fun x z => ∃ y, R x y ∧ z = f y) xs zs) :
    ∃ ys, List.Forall₂ R xs ys ∧ zs = ys.map f := by
  induction h with
  | nil => exact ⟨[], .nil, rfl⟩
  | cons hxz _ ih =>
    obtain ⟨y, hxy, rfl⟩ := hxz
    obtain ⟨ys, hys, rfl⟩ := ih
    exact ⟨y :: ys, .cons hxy hys, rfl⟩

theorem exists_forall₂ (h : ∀ x ∈ xs, ∃ y, R x y) : ∃ ys, List.Forall₂ R xs ys := by
  induction xs with
  | nil => exact ⟨[], .nil⟩
  | cons x xs ih =>
    obtain ⟨y, hy⟩ := h x (by simp)
    obtain ⟨ys, hys⟩ := ih fun x hx => h x (by simp [hx])
    exact ⟨y :: ys, .cons hy hys⟩

namespace Assoc

variable {α β : Type}

def Sorted (m : List (String × α)) : Prop := (keys m).Pairwise (· < ·)

theorem sorted_nil : Sorted ([] : List (String × α)) := List.Pairwise.nil

variable {k : String} {a : α} {m : List (String × α)} {κ : Type} {m' : List (String × β)}
  {f : α → β}

theorem sorted_cons : Sorted ((k, a) :: m) ↔ (∀ k' ∈ keys m, k < k') ∧ Sorted m := by
  simp [Sorted, keys]

theorem get?_eq_none_iff [DecidableEq κ] {m : List (κ × α)} {k : κ} :
    get? m k = none ↔ k ∉ keys m := by
  induction m with
  | nil => simp [get?, keys]
  | cons e m ih =>
    obtain ⟨k', a⟩ := e
    by_cases h : k = k' <;> simp [get?, keys, h] at ih ⊢
    exact ih

theorem mem_of_get? [DecidableEq κ] {m : List (κ × α)} {k : κ} (h : get? m k = some a) :
    (k, a) ∈ m := by
  induction m with
  | nil => simp [get?] at h
  | cons e m ih =>
    obtain ⟨k', b⟩ := e
    by_cases hk : k = k'
    · simp [get?, hk] at h
      simp [hk, h]
    · simp [get?, hk] at h
      exact .tail _ (ih h)

theorem mem_keys_of_get? (h : get? m k = some a) : k ∈ keys m :=
  List.mem_map_of_mem (f := Prod.fst) (mem_of_get? h)

theorem get?_of_mem (hm : Sorted m) (h : (k, a) ∈ m) : get? m k = some a := by
  induction m with
  | nil => cases h
  | cons e m ih =>
    obtain ⟨k', b⟩ := e
    obtain ⟨hlt, hm⟩ := sorted_cons.mp hm
    rcases List.mem_cons.mp h with h | h
    · cases h; simp [get?]
    · have hk : k ∈ keys m := List.mem_map_of_mem (f := Prod.fst) h
      have hne : k ≠ k' := (hlt k hk).ne'
      simp [get?, hne, ih hm h]

theorem contains_eq_true_iff : contains m k = true ↔ k ∈ keys m := by
  rw [contains, Option.isSome_iff_ne_none, ne_eq, get?_eq_none_iff, not_not]

theorem Sorted.ext {m' : List (String × α)} (hm : Sorted m) (hm' : Sorted m')
    (h : ∀ k, get? m k = get? m' k) : m = m' := by
  induction m generalizing m' with
  | nil =>
    cases m' with
    | nil => rfl
    | cons e m' => have := h e.1; simp [get?] at this
  | cons e m ih =>
    obtain ⟨k, a⟩ := e
    cases m' with
    | nil => have := h k; simp [get?] at this
    | cons e' m' =>
      obtain ⟨k', a'⟩ := e'
      obtain ⟨hlt, hs⟩ := sorted_cons.mp hm
      obtain ⟨hlt', hs'⟩ := sorted_cons.mp hm'
      -- each of the two first keys is a key of the other map, so neither is below the other
      have hkk : k = k' := by
        by_contra hne
        have h1 := h k
        have h2 := h k'
        simp only [get?, if_true, if_neg hne, if_neg (Ne.symm hne)] at h1 h2
        exact lt_asymm (hlt k' (mem_keys_of_get? h2)) (hlt' k (mem_keys_of_get? h1.symm))
      subst hkk
      have ha : a = a' := by have := h k; simpa [get?] using this
      subst ha
      congr 1
      refine ih hs hs' fun j => ?_
      by_cases hj : j = k
      · subst hj
        have hn : get? m j = none := get?_eq_none_iff.mpr fun hmem => lt_irrefl j (hlt j hmem)
        have hn' : get? m' j = none := get?_eq_none_iff.mpr fun hmem => lt_irrefl j (hlt' j hmem)
        rw [hn, hn']
      · have := h j
        simpa [get?, hj] using this

theorem mem_keys_insert [DecidableEq κ] [LT κ] [DecidableLT κ] {m : List (κ × α)} {k k' : κ} :
    k' ∈ keys (insert m k a) ↔ k' = k ∨ k' ∈ keys m := by
  have hi := get?_eq_none_iff (m := insert m k a) (k := k')
  have hm := get?_eq_none_iff (m := m) (k := k')
  by_cases h : k' = k
  · simp [h] at hi ⊢; exact hi
  · simp [h] at hi ⊢; tauto

theorem sorted_insert (hm : Sorted m) (k : String) (a : α) : Sorted (insert m k a) := by
  induction m with
  | nil => simp [insert, Sorted, keys]
  | cons e m ih =>
    obtain ⟨hlt, hs⟩ := sorted_cons.mp hm
    simp only [insert]
    split
    · rename_i h
      refine sorted_cons.mpr ⟨fun j hj => ?_, hm⟩
      rcases List.mem_cons.mp hj with rfl | hj
      · exact h
      · exact h.trans (hlt j hj)
    · rename_i hnlt
      split
      · rename_i h; subst h
        exact sorted_cons.mpr ⟨hlt, hs⟩
      · rename_i hne
        refine sorted_cons.mpr ⟨fun j hj => ?_, ih hs⟩
        rcases mem_keys_insert.mp hj with rfl | hj
        · exact lt_of_le_of_ne (not_lt.mp hnlt) (Ne.symm hne)
        · exact hlt j hj

theorem sorted_union {m' : List (String × α)} (hm' : Sorted m') : Sorted (union m m') := by
  induction m generalizing m' with
  | nil => exact hm'
  | cons e m ih => exact ih (sorted_insert hm' e.1 e.2)

theorem mem_keys_union {m' : List (String × α)} :
    k ∈ keys (union m m') ↔ k ∈ keys m ∨ k ∈ keys m' := by
  induction m generalizing m' with
  | nil => simp [union, keys]
  | cons e m ih =>
    show k ∈ keys (union m (insert m' e.1 e.2)) ↔ _
    rw [ih, mem_keys_insert]
    simp [keys, or_assoc, or_left_comm]

theorem mem_of_mem_insert [DecidableEq κ] [LT κ] [DecidableLT κ] {m : List (κ × α)} {k : κ}
    {e : κ × α} (h : e ∈ insert m k a) : e = (k, a) ∨ e ∈ m := by
  induction m with
  | nil => exact .inl (List.mem_singleton.mp h)
  | cons e' m ih =>
    rw [insert] at h
    split at h
    · exact List.mem_cons.mp h
    · split at h
      · exact (List.mem_cons.mp h).imp_right (List.mem_cons_of_mem _)
      · rcases List.mem_cons.mp h with rfl | h
        · exact .inr (by simp)
        · exact (ih h).imp_right (List.mem_cons_of_mem _)

theorem mem_of_mem_union {m' : List (String × α)} {e : String × α} (h : e ∈ union m m') :
    e ∈ m ∨ e ∈ m' := by
  induction m generalizing m' with
  | nil => exact .inr h
  | cons e' m ih =>
    rcases ih h with h | h
    · exact .inl (.tail _ h)
    · rcases mem_of_mem_insert h with rfl | h
      · exact .inl List.mem_cons_self
      · exact .inr h

theorem get?_union {m' : List (String × α)} (hm : Sorted m) (k : String) :
    get? (union m m') k = (get? m k).or (get? m' k) := by
  induction m generalizing m' with
  | nil => simp [union, get?]
  | cons e m ih =>
    obtain ⟨k', a⟩ := e
    obtain ⟨hlt, hs⟩ := sorted_cons.mp hm
    have hrec : get? (union m (insert m' k' a)) k = _ := ih hs
    show get? (union m (insert m' k' a)) k = _
    rw [hrec, get?_insert]
    by_cases h : k = k'
    · subst h
      have hn : get? m k = none := get?_eq_none_iff.mpr fun hmem => lt_irrefl k (hlt k hmem)
      simp [get?, hn]
    · simp [get?, h]

theorem union_nil (hm : Sorted m) : union m [] = m := by
  refine Sorted.ext (sorted_union sorted_nil) hm fun k => ?_
  rw [get?_union hm, get?, Option.or_none]

theorem union_assoc {a b c : List (String × α)} (ha : Sorted a) (hb : Sorted b) (hc : Sorted c) :
    union (union a b) c = union a (union b c) := by
  refine Sorted.ext (sorted_union hc) (sorted_union (sorted_union hc)) fun k => ?_
  rw [get?_union (sorted_union hb), get?_union ha, get?_union ha, get?_union hb, Option.or_assoc]

theorem sorted_without (hm : Sorted m) (m' : List (String × β)) : Sorted (without m m') := by
  have hsub : List.Sublist (keys (without m m')) (keys m) := List.filter_sublist.map Prod.fst
  exact List.Pairwise.sublist hsub hm

theorem get?_without (k : String) :
    get? (without m m') k = if k ∈ keys m' then none else get? m k := by
  induction m with
  | nil => simp [without, get?]
  | cons e m ih =>
    obtain ⟨k', a⟩ := e
    have hc : contains m' k' = true ↔ k' ∈ keys m' := contains_eq_true_iff
    by_cases hk' : k' ∈ keys m'
    · have hcons : without ((k', a) :: m) m' = without m m' := by
        simp [without, hc.mpr hk']
      rw [hcons, ih]
      by_cases h : k = k'
      · subst h; simp [hk']
      · simp [get?, h]
    · have hcf : contains m' k' = false := by
        rw [← Bool.not_eq_true, hc]; exact hk'
      have hcons : without ((k', a) :: m) m' = (k', a) :: without m m' := by
        simp [without, hcf]
      rw [hcons]
      by_cases h : k = k'
      · subst h; simp [get?, hk']
      · simp [get?, h, ih]

theorem union_without_comm {m' : List (String × α)} (hm : Sorted m) (hm' : Sorted m')
    (h : ∀ k a a', get? m k = some a → get? m' k = some a' → a = a') :
    union m (without m' m) = union m' (without m m') := by
  refine Sorted.ext (sorted_union (sorted_without hm' m)) (sorted_union (sorted_without hm m'))
    fun k => ?_
  rw [get?_union hm, get?_union hm', get?_without, get?_without]
  cases hk : get? m k with
  | none =>
    have hn := get?_eq_none_iff.mp hk
    cases hk' : get? m' k <;> simp [hn]
  | some a =>
    cases hk' : get? m' k with
    | none =>
      have hn' := get?_eq_none_iff.mp hk'
      simp [hn']
    | some a' => simp [h k a a' hk hk']

/-- The two maps have the same keys, in the same order, and related values. -/
def Related (R : α → β → Prop) : List (String × α) → List (String × β) → Prop :=
  List.Forall₂ fun e e' => e.1 = e'.1 ∧ R e.2 e'.2

variable {R : α → β → Prop}

theorem Related.keys_eq (h : Related R m m') : keys m = keys m' := by
  induction h with
  | nil => rfl
  | cons he _ ih =>
    simp only [keys, List.map_cons] at ih ⊢
    rw [he.1, ih]

theorem Related.sorted_iff (h : Related R m m') : Sorted m ↔ Sorted m' := by
  rw [Sorted, Sorted, h.keys_eq]

theorem get?_rel {S : String → α → β → Prop}
    (h : List.Forall₂ (fun e e' => e.1 = e'.1 ∧ S e.1 e.2 e'.2) m m') (k : String) :
    Option.Rel (S k) (get? m k) (get? m' k) := by
  induction h with
  | nil => exact .none
  | @cons e e' _ _ he _ ih =>
    obtain ⟨k1, a⟩ := e
    obtain ⟨k2, b⟩ := e'
    obtain ⟨rfl, hab⟩ := he
    by_cases hk : k = k1
    · subst hk; simpa [get?] using hab
    · simpa [get?, hk] using ih

theorem Related.get? (h : Related R m m') (k : String) :
    Option.Rel R (get? m k) (get? m' k) := get?_rel (S := fun _ => R) h k

theorem Related.insert (h : Related R m m') (k : String) {b : β} (hab : R a b) :
    Related R (insert m k a) (insert m' k b) := by
  induction h with
  | nil => exact .cons ⟨rfl, hab⟩ .nil
  | @cons e e' m m' he hm ih =>
    obtain ⟨k1, a1⟩ := e
    obtain ⟨rfl, h₁⟩ := he
    simp only [Assoc.insert]
    split
    · exact .cons ⟨rfl, hab⟩ (.cons ⟨rfl, h₁⟩ hm)
    · split
      · exact .cons ⟨rfl, hab⟩ hm
      · exact .cons ⟨rfl, h₁⟩ ih

theorem Related.union {m1 m2 : List (String × α)} {m1' m2' : List (String × β)}
    (h₁ : Related R m1 m1') (h₂ : Related R m2 m2') :
    Related R (union m1 m2) (union m1' m2') := by
  induction h₁ generalizing m2 m2' with
  | nil => exact h₂
  | @cons e e' _ _ he _ ih =>
    obtain ⟨k1, a⟩ := e
    obtain ⟨k2, b⟩ := e'
    obtain ⟨rfl, hab⟩ := he
    exact ih (h₂.insert k1 hab)

theorem Related.without {δ : Type} (h : Related R m m') {m2 : List (String × γ)}
    {m2' : List (String × δ)} (hk : keys m2 = keys m2') :
    Related R (without m m2) (without m' m2') := by
  have hc : ∀ k, contains m2 k = contains m2' k := by
    intro k
    rw [Bool.eq_iff_iff, contains_eq_true_iff, contains_eq_true_iff, hk]
  induction h with
  | nil => exact .nil
  | @cons e e' _ _ he _ ih =>
    obtain ⟨k1, a⟩ := e
    obtain ⟨k2, b⟩ := e'
    obtain ⟨rfl, hab⟩ := he
    simp only [Assoc.without, List.filter_cons, hc k1]
    split
    · exact .cons ⟨rfl, hab⟩ ih
    · exact ih

theorem Related.exists_left (h : Related R m m') {e' : String × β} (he' : e' ∈ m') :
    ∃ e ∈ m, e.1 = e'.1 ∧ R e.2 e'.2 :=
  exists_of_forall₂_right h he'

theorem Related.mono {S : α → β → Prop} (h : Related R m m') (hRS : ∀ a b, R a b → S a b) :
    Related S m m' :=
  List.Forall₂.imp (fun _ _ he => ⟨he.1, hRS _ _ he.2⟩) h

theorem Related.of_mem {P : α → Prop} (h : Related (fun a b => P a → R a b) m m')
    (hP : ∀ e ∈ m, P e.2) : Related R m m' :=
  forall₂_of_mem (P := fun e => P e.2) (h.imp fun _ _ he hp => ⟨he.1, he.2 hp⟩) hP

theorem Related.unique {m1 m2 : List (String × β)}
    (h : Related (fun a b => ∀ b', R a b' → b = b') m m1) (h' : Related R m m2) : m1 = m2 := by
  refine forall₂_unique (h.imp fun e e' he e'' he'' => ?_) h'
  exact Prod.ext (he.1.symm.trans he''.1) (he.2 _ he''.2)

theorem exists_related (h : ∀ e ∈ m, ∃ b, R e.2 b) : ∃ m', Related R m m' := by
  refine exists_forall₂ fun e he => ?_
  obtain ⟨b, hb⟩ := h e he
  exact ⟨(e.1, b), rfl, hb⟩

theorem related_of_zip (hk : keys m = keys m') (h : ∀ k a b, ((k, a), (k, b)) ∈ m.zip m' → R a b) :
    Related R m m' := by
  induction m generalizing m' with
  | nil =>
    cases m' with
    | nil => exact .nil
    | cons _ _ => simp [keys] at hk
  | cons e m ih =>
    cases m' with
    | nil => simp [keys] at hk
    | cons e' m' =>
      obtain ⟨k, a⟩ := e
      obtain ⟨k', b⟩ := e'
      simp only [keys, List.map_cons, List.cons.injEq] at hk
      obtain ⟨rfl, hk⟩ := hk
      exact .cons ⟨rfl, h k a b (by simp)⟩ (ih hk fun k a b hp => h k a b (by simp [hp]))

def mapValues (f : α → β) (m : List (String × α)) : List (String × β) := m.map fun e => (e.1, f e.2)

theorem related_mapValues_iff : Related (fun a b => b = f a) m m' ↔ m' = mapValues f m := by
  constructor
  · intro h
    induction h with
    | nil => rfl
    | @cons e e' _ _ he _ ih =>
      obtain ⟨k, b⟩ := e'
      obtain ⟨rfl, hb⟩ := he
      simp only [mapValues, List.map_cons] at hb ih ⊢
      rw [ih, hb]
  · rintro rfl
    induction m with
    | nil => exact .nil
    | cons e m ih => exact .cons ⟨rfl, rfl⟩ ih

theorem exists_mapValues_of_related {f : β → γ} {m' : List (String × γ)}
    (h : Related (fun a c => ∃ b, R a b ∧ c = f b) m m') :
    ∃ m'', Related R m m'' ∧ m' = mapValues f m'' := by
  refine exists_map_of_forall₂ (f := fun e : String × β => (e.1, f e.2)) (h.imp fun e e' he => ?_)
  obtain ⟨hk, b, hb, hf⟩ := he
  exact ⟨(e.1, b), ⟨rfl, hb⟩, Prod.ext hk.symm hf⟩

theorem Related.mapValues {S : α → γ → Prop} {f : β → γ} (h : Related (fun a b => S a (f b)) m m') :
    Related S m (mapValues f m') := by
  rw [Related, Assoc.mapValues, List.forall₂_map_right_iff]
  exact h

@[simp] theorem keys_mapValues (f : α → β) (m : List (String × α)) :
    keys (mapValues f m) = keys m := (related_mapValues_iff.mpr rfl).keys_eq.symm

theorem sorted_mapValues :
    Sorted (mapValues f m) ↔ Sorted m := by rw [Sorted, Sorted, keys_mapValues]

theorem mapValues_union (f : α → β) (m m' : List (String × α)) :
    mapValues f (union m m') = union (mapValues f m) (mapValues f m') :=
  (related_mapValues_iff.mp
    (Related.union (related_mapValues_iff.mpr rfl) (related_mapValues_iff.mpr rfl))).symm

end Assoc
end TypeSolver
