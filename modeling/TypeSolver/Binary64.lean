/-!
# TypeSolver.Binary64

Double precision numbers by their 64 bits, with exact rounding: `nearest` gives the number closest
to a fraction, and of two that are equally close the one with an even last bit.
-/

namespace TypeSolver

structure Binary64 where
  bits : UInt64
deriving DecidableEq

namespace Binary64

def zero : Binary64 := ⟨0⟩

def infinity : Binary64 := ⟨0x7ff0000000000000⟩

def neg (x : Binary64) : Binary64 := ⟨x.bits ^^^ 0x8000000000000000⟩

def isNegative (x : Binary64) : Bool := x.bits &&& 0x8000000000000000 != 0

def isFinite (x : Binary64) : Bool := x.bits &&& infinity.bits != infinity.bits

/-- The quotient of two natural numbers, rounded to the nearest natural number. -/
def roundDiv (num den : Nat) : Nat :=
  let q := num / den
  let twice := 2 * (num % den)
  if twice < den then q else if den < twice then q + 1 else q + q % 2

def scale (m : Nat) (e : Int) : Nat × Nat :=
  if 0 ≤ e then (m * Nat.pow 2 e.toNat, 1) else (m, Nat.pow 2 (-e).toNat)

/-- The exponent of the greatest power of two that is not above `num / den`. -/
def floorLog2 (num den : Nat) : Int :=
  let k : Int := (Nat.log2 num : Int) - Nat.log2 den
  match scale den k with
  | (n, d) => if n ≤ num * d then k else k - 1

/-- The number nearest to `num / den`; infinity if that is beyond the greatest one. -/
def nearest (num den : Nat) : Binary64 :=
  if num = 0 then zero
  else
    let e : Int := max (floorLog2 num den - 52) (-1074)
    match scale 1 e with
    | (n, d) =>
      let word := (e + 1074).toNat * 0x10000000000000 + roundDiv (num * d) (den * n)
      if word < infinity.bits.toNat then ⟨word.toUInt64⟩ else infinity

def ofNat (n : Nat) : Binary64 := nearest n 1

def ofInt (n : Int) : Binary64 := if n < 0 then (ofNat n.natAbs).neg else ofNat n.natAbs

def fraction (x : Binary64) : Nat × Nat :=
  let word : Nat := x.bits.toNat % 0x8000000000000000
  let e : Nat := word / 0x10000000000000
  let m : Nat := word % 0x10000000000000
  if e = 0 then scale m (-1074) else scale (0x10000000000000 + m) ((e : Int) - 1075)

def mul (x y : Binary64) : Binary64 :=
  match x.fraction, y.fraction with
  | (a, b), (c, d) => nearest (a * c) (b * d)

def div (x y : Binary64) : Binary64 :=
  match x.fraction, y.fraction with
  | (a, b), (c, d) => nearest (a * d) (b * c)

/-- The value `x / 10 ^ n`, in steps of at most 308 powers of ten. Three steps bring every
number to zero. -/
def divPow10 : Nat → Binary64 → Nat → Binary64
  | 0, _, _ => zero
  | steps + 1, x, n =>
    if n ≤ 308 then x.div (ofNat (Nat.pow 10 n))
    else if x = zero then zero
    else divPow10 steps (x.div (ofNat (Nat.pow 10 308))) (n - 308)

/-- The number that the decimal `digits · 10 ^ exponent` is read as. The digits and the power of
ten are rounded first, then their product or quotient. It is `none` beyond the greatest number. -/
def ofDecimal (digits : Nat) (exponent : Int) : Option Binary64 :=
  if digits = 0 then some zero
  else if exponent < 0 then some (divPow10 4 (ofNat digits) exponent.natAbs)
  else if 308 < exponent then none
  else
    let x := (ofNat digits).mul (ofNat (Nat.pow 10 exponent.toNat))
    if x.isFinite then some x else none

end Binary64
end TypeSolver
