import TypeSolver.Json

/-!
# TypeSolver.Json.Number

Numbers in JSON text. A number without fraction and exponent is an integer if it fits a 64-bit
word, signed or unsigned; every other number is a double, `-0` among them.
-/

namespace TypeSolver
namespace Json

/-- Append digits to `word` for as long as it fits 64 bits, and count the digits left over. -/
def takeDigits : Nat → List Char → Nat × Nat
  | word, [] => (word, 0)
  | word, d :: ds =>
    let next := word * 10 + (d.toNat - 48)
    if next < 0x10000000000000000 then takeDigits next ds else (word, ds.length + 1)

def digitsValue (ds : List Char) : Nat := ds.foldl (fun n d => n * 10 + (d.toNat - 48)) 0

def signed (negative : Bool) (x : Binary64) : Binary64 := if negative then x.neg else x

/-- The value of a number with the given digits before the point, after it, and power of ten.
Digits of the whole part that the word cannot hold shift the value, and those after the point
are left out. -/
def ofParts (negative : Bool) (whole fraction : List Char) (exponent : Int) : Json :=
  match takeDigits 0 whole with
  | (word, dropped) =>
    match takeDigits word fraction with
    | (word, unused) =>
      match Binary64.ofDecimal word (dropped - (fraction.length - unused : Nat) + exponent) with
      | some x => .float (signed negative x)
      | none => .unreadable

/-- The value of a number that is written with digits only. -/
def ofDigits (negative : Bool) (digits : List Char) : Json :=
  let n := digitsValue digits
  if negative then
    if 0 < n ∧ n ≤ 0x8000000000000000 then .int (-n) else ofParts true digits [] 0
  else if n < 0x10000000000000000 then .int n
  else ofParts false digits [] 0

def digits (cs : List Char) : List Char × List Char := cs.span Char.isDigit

def exponent : List Char → Option (Int × List Char)
  | '+' :: cs => unsigned cs
  | '-' :: cs => (unsigned cs).map fun (n, rest) => (-n, rest)
  | cs => unsigned cs
where
  unsigned (cs : List Char) : Option (Int × List Char) :=
    match digits cs with
    | ([], _) => none
    | (ds, rest) => some (digitsValue ds, rest)

def afterWhole (negative : Bool) (whole fraction : List Char) :
    List Char → Option (Json × List Char)
  | 'e' :: cs => (exponent cs).map fun (e, rest) => (ofParts negative whole fraction e, rest)
  | 'E' :: cs => (exponent cs).map fun (e, rest) => (ofParts negative whole fraction e, rest)
  | cs => some (if fraction.isEmpty then ofDigits negative whole
      else ofParts negative whole fraction 0, cs)

/-- A number after its sign. A whole part of several digits does not start with `0`. -/
def unsignedNumber (negative : Bool) (cs : List Char) : Option (Json × List Char) :=
  match digits cs with
  | ([], _) => none
  | ('0' :: _ :: _, _) => none
  | (whole, '.' :: rest) =>
    match digits rest with
    | ([], _) => none
    | (fraction, rest) => afterWhole negative whole fraction rest
  | (whole, rest) => afterWhole negative whole [] rest

def number : List Char → Option (Json × List Char)
  | '-' :: cs => unsignedNumber true cs
  | cs => unsignedNumber false cs

end Json
end TypeSolver
