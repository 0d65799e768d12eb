import TypeSolver.Alias

/-!
# TypeSolver.Store

The store of unification variables: a union-find forest. Each variable is linked to another or
is the root of its class, and the content of the root says what the class stands for. `root` and
`content` are what the store says about a variable; `find` gives the same root and may shorten
the links on its way.
-/

namespace TypeSolver

/-- What a class of variables stands for: nothing yet, where the rank is the least of all that
joined the class; a type; or nothing any more, after an error in which it took part. -/
inductive Content where
  | unbound (rank : Rank) (hint : Option String)
  | bound (t : Ty)
  | poisoned

inductive Slot where
  | link (next : Var)
  | root (content : Content)

structure Store where
  slots : Array Slot := #[]
  aliases : AliasTable := []
  /-- Whether `find` relinks the variables it passes directly to their root. -/
  compress : Bool := true

namespace Store

def size (s : Store) : Nat := s.slots.size

/-- A new variable, in a class of its own. -/
def fresh (s : Store) (rank : Rank) (hint : Option String) : Var × Store :=
  (s.size, { s with slots := s.slots.push (.root (.unbound rank hint)) })

def follow (slots : Array Slot) : Nat → Var → Var
  | 0, v => v
  | fuel + 1, v =>
    match slots[v]? with
    | some (.link next) => follow slots fuel next
    | _ => v

/-- The representative of a variable's class. A path of links is shorter than the store. -/
def root (s : Store) (v : Var) : Var := follow s.slots s.size v

/-- Link the variables on the way from `v` to its root `r` directly to `r`. -/
def relink (r : Var) : Nat → Var → Array Slot → Array Slot
  | 0, _, slots => slots
  | fuel + 1, v, slots =>
    match slots[v]? with
    | some (.link next) => relink r fuel next (slots.setIfInBounds v (.link r))
    | _ => slots

/-- The representative of a variable's class, with shorter links to it if the store compresses
paths. -/
def find (s : Store) (v : Var) : Var × Store :=
  let r := s.root v
  if s.compress then (r, { s with slots := relink r s.size v s.slots }) else (r, s)

/-- The representatives of several variables, looked up from left to right. -/
def findAll (s : Store) : List Var → List Var × Store
  | [] => ([], s)
  | v :: vs =>
    match s.find v with
    | (r, s) =>
      match s.findAll vs with
      | (rs, s) => (r :: rs, s)

/-- What the class of `v` stands for. A variable that was never made counts as poisoned. -/
def content (s : Store) (v : Var) : Content :=
  match s.slots[s.root v]? with
  | some (.root c) => c
  | _ => .poisoned

def rank? (s : Store) (v : Var) : Option Rank :=
  match s.content v with
  | .unbound rank _ => some rank
  | _ => none

def sameClass (s : Store) (v w : Var) : Bool := s.root v == s.root w

def isPoisoned (s : Store) (v : Var) : Bool :=
  match s.content v with
  | .poisoned => true
  | _ => false

def put (s : Store) (r : Var) (c : Content) : Store :=
  { s with slots := s.slots.setIfInBounds r (.root c) }

def link (s : Store) (v r : Var) : Store :=
  { s with slots := s.slots.setIfInBounds v (.link r) }

/-- Give up the class of `v`: it took part in an error, and later uses of it succeed silently. -/
def poison (s : Store) (v : Var) : Store :=
  match s.find v with
  | (r, s') => s'.put r .poisoned

end Store
end TypeSolver
