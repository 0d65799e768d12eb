import TypeSolver.Naming
import TypeSolver.Store.Search

/-!
# TypeSolver.Unify

Unification over the store. Two types are made equal by linking classes and binding unbound
ones. When that fails, the classes that met are poisoned, so that what is said about them later
does not report the same fault again. Records are compared as rows: known fields first, then
what their extensions stand for.
-/

namespace TypeSolver

inductive Mismatch where
  | shape (expected actual : NamedType)
  | occurs (var ty : NamedType)
  | fields (missing extra : List String) (expected actual : NamedType)

/-- How a unification ended, with the store it left. -/
inductive Outcome where
  | unified (s : Store)
  | failed (m : Mismatch) (s : Store)
  | outOfFuel

namespace Outcome

def andThen : Outcome → (Store → Outcome) → Outcome
  | .unified s, f => f s
  | .failed m s, _ => .failed m s
  | .outOfFuel, _ => .outOfFuel

def onFailure : Outcome → (Store → Store) → Outcome
  | .unified s, _ => .unified s
  | .failed m s, f => .failed m (f s)
  | .outOfFuel, _ => .outOfFuel

/-- Treat pairs from left to right, up to the first failure. -/
def each (f : Ty → Ty → Store → Outcome) : List (Ty × Ty) → Store → Outcome
  | [], s => .unified s
  | (l, r) :: ps, s => (f l r s).andThen (each f ps)

end Outcome

/-- Which operand a variable was. -/
inductive Side where
  | left
  | right

/-- What follows the known fields of a row: nothing, an unbound class, or something spoiled. -/
inductive Tail where
  | closed
  | opened (v : Var)
  | spoiled

structure Row where
  fields : List (String × Ty)
  tail : Tail

namespace Store

/-- All fields of a record, gathered through bound extensions; the outer of two fields with one
name is the field. A stuck alias among the extensions is read, as if for an error. -/
def gather : Nat → List (String × Ty) → Option Var → Store → Option (Row × Store)
  | 0, _, _, _ => none
  | _ + 1, fields, none, s => some (⟨fields, .closed⟩, s)
  | fuel + 1, fields, some v, s =>
    match s.find v with
    | (r, s) =>
      match s.content r with
      | .unbound _ _ => some (⟨fields, .opened r⟩, s)
      | .poisoned => some (⟨fields, .spoiled⟩, s)
      | .bound t =>
        match s.aliases.head fuel t with
        | none => none
        | some (.settled (.record more rest)) => gather fuel (Assoc.union fields more) rest s
        | some (.settled _) => some (⟨fields, .spoiled⟩, s)
        | some (.stuck u) => (s.takeSnapshot fuel u).map fun (_, s) => (⟨fields, .spoiled⟩, s)

/-- Fail, and show what `l` and `r` stand for. -/
def failWith (s : Store) (fuel : Nat) (l r : Ty) (mismatch : NamedType → NamedType → Mismatch) :
    Outcome :=
  match s.takeSnapshot fuel l with
  | none => .outOfFuel
  | some (shownL, s) =>
    match s.takeSnapshot fuel r with
    | none => .outOfFuel
    | some (shownR, s) => .failed (mismatch shownL shownR) s

def shapeMismatch (s : Store) (fuel : Nat) (l r : Ty) : Outcome := s.failWith fuel l r .shape

/-- Fail because the record `l` has fields that `r` lacks, or the other way round. -/
def fieldsMismatch (s : Store) (fuel : Nat) (onlyLeft onlyRight : List (String × Ty))
    (l r : Ty) : Outcome :=
  s.failWith fuel l r (.fields (Assoc.keys onlyLeft) (Assoc.keys onlyRight))

/-- Let the unbound root `r` stand for `t`, in the way that `become` says. A class may not stand
for a type that contains it, and all that it stands for takes part in its rank. -/
def adopt (s : Store) (fuel : Nat) (r : Var) (rank : Rank) (t : Ty) (become : Store → Store) :
    Outcome :=
  match s.occurs r t with
  | (true, s) => (s.failWith fuel (.var r) t .occurs).onFailure fun s => s.poison r
  | (false, s) => .unified (become (s.adjustRanks t rank))

/-- The rank of the variable in which two open tails go on, if one of them is still open. -/
def tailRank (s : Store) (v w : Var) : Option Rank :=
  match s.rank? v, s.rank? w with
  | none, none => none
  | some rank, none => some rank
  | none, some rank => some rank
  | some rank, some rank' => some (min rank rank')

/-- Look up two tails and the rank in which they go on. -/
def restRank (s : Store) (v w : Var) : Option Rank × Store :=
  match s.find v with
  | (_, s) =>
    match s.find w with
    | (_, s) => (s.tailRank v w, s)

mutual

/-- Make two types equal. `outOfFuel` says that the fuel did not suffice to decide. -/
def unify : Nat → Ty → Ty → Store → Outcome
  | 0, _, _, _ => .outOfFuel
  | fuel + 1, .var v, .var w, s => unifyVars fuel v w s
  | fuel + 1, .var v, r, s => unifyVar fuel .left v r s
  | fuel + 1, l, .var w, s => unifyVar fuel .right w l s
  | fuel + 1, l, r, s => unifyTerms fuel l r s
termination_by structural fuel => fuel

/-- Make the classes of two variables one. The class of the first goes under the second, except
where only the first is bound or the first is poisoned. -/
def unifyVars : Nat → Var → Var → Store → Outcome
  | 0, _, _, _ => .outOfFuel
  | fuel + 1, v, w, s =>
    match s.find v with
    | (a, s) =>
      match s.find w with
      | (b, s) =>
        if a = b then .unified s
        else
          match s.content a, s.content b with
          | .poisoned, _ => .unified (s.link b a)
          | _, .poisoned => .unified (s.link a b)
          | .unbound rankA hintA, .unbound rankB hintB =>
            .unified ((s.link a b).put b (.unbound (min rankA rankB) (hintB <|> hintA)))
          | .unbound rank _, .bound t => s.adopt fuel a rank t fun s => s.link a b
          | .bound t, .unbound rank _ => s.adopt fuel b rank t fun s => s.link b a
          | .bound l, .bound r =>
            match unifyTerms fuel l r s with
            | .unified s =>
              match s.find a with
              | (a, s) =>
                match s.find b with
                | (b, s) => .unified (if a = b then s else s.link a b)
            | o => o.onFailure fun s => (s.poison a).poison b
termination_by structural fuel => fuel

def unifyVar : Nat → Side → Var → Ty → Store → Outcome
  | 0, _, _, _, _ => .outOfFuel
  | fuel + 1, side, v, t, s =>
    match s.find v with
    | (r, s) =>
      match s.content r with
      | .poisoned => .unified s
      | .unbound rank _ => s.adopt fuel r rank t fun s => s.put r (.bound t)
      | .bound u =>
        match side with
        | .left => (unifyTerms fuel u t s).onFailure fun s => s.poison r
        | .right => (unifyTerms fuel t u s).onFailure fun s => s.poison r
termination_by structural fuel => fuel

/-- Make two types equal after settling their heads. An alias whose arguments do not fit it
equals nothing, not even itself. -/
def unifyTerms : Nat → Ty → Ty → Store → Outcome
  | 0, _, _, _ => .outOfFuel
  | fuel + 1, l, r, s =>
    match s.aliases.head fuel l with
    | none => .outOfFuel
    | some (.stuck l) => s.shapeMismatch fuel l l
    | some (.settled l) =>
      match s.aliases.head fuel r with
      | none => .outOfFuel
      | some (.stuck r) => s.shapeMismatch fuel r r
      | some (.settled r) =>
        match l, r with
        | .var _, _ => unify fuel l r s
        | _, .var _ => unify fuel l r s
        | .func a b, .func c d => (unify fuel a c s).andThen (unify fuel b d)
        | .app f as, .app g bs =>
          if f = g ∧ as.length = bs.length then Outcome.each (unify fuel) (as.zip bs) s
          else s.shapeMismatch fuel l r
        | .record fs ext, .record gs ext' =>
          match s.gather fuel fs ext with
          | none => .outOfFuel
          | some (rowL, s) =>
            match s.gather fuel gs ext' with
            | none => .outOfFuel
            | some (rowR, s) => unifyRows fuel rowL rowR l r s
        | _, _ => s.shapeMismatch fuel l r
termination_by structural fuel => fuel

/-- Make two rows equal: the fields they share, then the tails. An open tail takes the fields
that only the other row has; two open tails take each other's and go on in a new variable. The
records `l` and `r` that the rows came from are shown on failure. -/
def unifyRows : Nat → Row → Row → Ty → Ty → Store → Outcome
  | 0, _, _, _, _, _ => .outOfFuel
  | fuel + 1, rowL, rowR, l, r, s =>
    let onlyLeft := Assoc.without rowL.fields rowR.fields
    let onlyRight := Assoc.without rowR.fields rowL.fields
    (Outcome.each (unify fuel) (Assoc.shared rowL.fields rowR.fields) s).andThen fun s =>
      match rowL.tail, rowR.tail with
      | .spoiled, _ => .unified s
      | _, .spoiled => .unified s
      | .closed, .closed =>
        if onlyLeft.isEmpty && onlyRight.isEmpty then .unified s
        else s.fieldsMismatch fuel onlyLeft onlyRight l r
      | .opened v, .closed =>
        if onlyLeft.isEmpty then unifyVar fuel .left v (.record onlyRight none) s
        else s.fieldsMismatch fuel onlyLeft [] l r
      | .closed, .opened w =>
        if onlyRight.isEmpty then unifyVar fuel .right w (.record onlyLeft none) s
        else s.fieldsMismatch fuel [] onlyRight l r
      | .opened v, .opened w =>
        if v = w then
          if onlyLeft.isEmpty && onlyRight.isEmpty then .unified s
          else s.fieldsMismatch fuel onlyLeft onlyRight l r
        else
          match s.restRank v w with
          | (none, s) => .unified s
          | (some rank, s) => openTails fuel v w rank onlyLeft onlyRight s
termination_by structural fuel => fuel

/-- Let two open tails take the fields that only the other row has, and a new variable for what
both leave open. -/
def openTails : Nat → Var → Var → Rank → List (String × Ty) → List (String × Ty) → Store → Outcome
  | 0, _, _, _, _, _, _ => .outOfFuel
  | fuel + 1, v, w, rank, onlyLeft, onlyRight, s =>
    match s.fresh rank none with
    | (rest, s) =>
      (unifyVar fuel .left v (.record onlyRight (some rest)) s).andThen
        (unifyVar fuel .right w (.record onlyLeft (some rest)))
termination_by structural fuel => fuel

end

end Store
end TypeSolver
