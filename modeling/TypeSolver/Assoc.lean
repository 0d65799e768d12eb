/-!
# TypeSolver.Assoc

Finite maps as association lists in increasing order of key. Every operation here keeps that
order, so two maps with the same entries are the same list, and listing a map lists its keys in
order.
-/

namespace TypeSolver
namespace Assoc

variable {κ α β : Type}

def keys (m : List (κ × α)) : List κ := m.map Prod.fst

def values (m : List (κ × α)) : List α := m.map Prod.snd

variable [DecidableEq κ]

def get? : List (κ × α) → κ → Option α
  | [], _ => none
  | (k', a) :: m, k => if k = k' then some a else get? m k

def contains (m : List (κ × α)) (k : κ) : Bool := (get? m k).isSome

def without (m : List (κ × α)) (m' : List (κ × β)) : List (κ × α) :=
  m.filter fun (k, _) => !contains m' k

/-- The values that `m` and `m'` give to the keys they share, in the order of `m`. -/
def shared (m : List (κ × α)) (m' : List (κ × β)) : List (α × β) :=
  m.filterMap fun (k, a) => (get? m' k).map fun b => (a, b)

variable [LT κ] [DecidableLT κ]

/-- Set the value of `k`, replacing the one it had. -/
def insert : List (κ × α) → κ → α → List (κ × α)
  | [], k, a => [(k, a)]
  | (k', a') :: m, k, a =>
    if k < k' then (k, a) :: (k', a') :: m
    else if k = k' then (k, a) :: m
    else (k', a') :: insert m k a

@[simp] theorem get?_insert (m : List (κ × α)) (k k' : κ) (a : α) :
    get? (insert m k a) k' = if k' = k then some a else get? m k' := by
  induction m with
  | nil => rfl
  | cons e m ih =>
    obtain ⟨k₀, a₀⟩ := e
    simp only [insert]
    split
    · rfl
    · split
      · rename_i h; subst h
        by_cases h : k' = k <;> simp [get?, h]
      · rename_i hne
        by_cases h : k' = k₀
        · subst h; simp [get?, Ne.symm hne]
        · simp [get?, h, ih]

/-- All entries of both maps; where they share a key, `m` decides. -/
def union (m m' : List (κ × α)) : List (κ × α) :=
  m.foldl (fun acc (k, a) => insert acc k a) m'

/-- The map of a list of entries; the last entry for a key decides. -/
def ofList (entries : List (κ × α)) : List (κ × α) := union entries []

end Assoc
end TypeSolver
