import TypeSolver.Binary64
import TypeSolver.Toml

/-!
# TypeSolver.Toml.Scalar

The values of TOML that hold no others: numbers, dates and times, and strings.
-/

namespace TypeSolver
namespace Toml

/-! ## Characters -/

def isBlank (c : Char) : Bool := c == ' ' || c == '\t'

def skipBlanks (cs : List Char) : List Char := cs.dropWhile isBlank

/-- Neither a control character, the tab apart, nor a line end. -/
def isPlain (c : Char) : Bool := c == '\t' || (32 ≤ c.toNat && c.toNat != 127)

def newline? : List Char → Option (List Char)
  | '\n' :: cs => some cs
  | '\r' :: '\n' :: cs => some cs
  | _ => none

def hexValue? (c : Char) : Option Nat :=
  if c.isDigit then some (c.toNat - 48)
  else if 'a' ≤ c ∧ c ≤ 'f' then some (c.toNat - 87)
  else if 'A' ≤ c ∧ c ≤ 'F' then some (c.toNat - 55)
  else none

def digitValue? (base : Nat) (c : Char) : Option Nat := (hexValue? c).filter (· < base)

def isDigitOf (base : Nat) (c : Char) : Bool := (digitValue? base c).isSome

def valueOf (base : Nat) (ds : List Char) : Nat :=
  ds.foldl (fun n d => n * base + (digitValue? base d).getD 0) 0

/-! ## Numbers -/

/-- Digits after a digit; one underscore may stand between two digits. -/
def moreDigits (base : Nat) : List Char → List Char × List Char
  | '_' :: d :: cs =>
    if isDigitOf base d then
      match moreDigits base cs with
      | (ds, rest) => (d :: ds, rest)
    else ([], '_' :: d :: cs)
  | d :: cs =>
    if isDigitOf base d then
      match moreDigits base cs with
      | (ds, rest) => (d :: ds, rest)
    else ([], d :: cs)
  | [] => ([], [])

/-- One digit at least, zeros in front allowed. -/
def digits (base : Nat) : List Char → Option (List Char × List Char)
  | d :: cs =>
    if isDigitOf base d then
      match moreDigits base cs with
      | (ds, rest) => some (d :: ds, rest)
    else none
  | [] => none

/-- A decimal without zeros in front. -/
def decimal : List Char → Option (List Char × List Char)
  | '0' :: cs => some (['0'], cs)
  | cs => digits 10 cs

/-- A sign, if there is one: whether it is a minus, and the rest. -/
def sign : List Char → Bool × List Char
  | '+' :: cs => (false, cs)
  | '-' :: cs => (true, cs)
  | cs => (false, cs)

def ofInt (n : Int) : Option Toml :=
  if -0x8000000000000000 ≤ n ∧ n < 0x8000000000000000 then some (.integer n) else none

/-- An integer in a base that its first two characters give. -/
def basedInteger (base : Nat) (cs : List Char) : Option (Toml × List Char) := do
  let (ds, rest) ← digits base cs
  let n ← ofInt (valueOf base ds)
  pure (n, rest)

def readInteger : List Char → Option (Toml × List Char)
  | '0' :: 'x' :: cs => basedInteger 16 cs
  | '0' :: 'o' :: cs => basedInteger 8 cs
  | '0' :: 'b' :: cs => basedInteger 2 cs
  | cs => do
    let (negative, cs) := sign cs
    let (ds, rest) ← decimal cs
    let n ← ofInt (if negative then -valueOf 10 ds else valueOf 10 ds)
    pure (n, rest)

/-- Whether `n · 10 ^ e` is rounded to infinity. -/
def isHuge (n : Nat) (e : Int) : Bool :=
  let size : Int := e + (Nat.toDigits 10 n).length
  if n = 0 || size < 300 then false
  else if 400 < size then true
  else decide (Binary64.nearest (n * Nat.pow 10 e.toNat) (Nat.pow 10 (-e).toNat) = .infinity)

def exponent (cs : List Char) : Option (Int × List Char) := do
  let (negative, cs) := sign cs
  let (ds, rest) ← digits 10 cs
  pure (if negative then -valueOf 10 ds else valueOf 10 ds, rest)

def exponent? : List Char → Option (Option (Int × List Char))
  | 'e' :: cs => (exponent cs).map some
  | 'E' :: cs => (exponent cs).map some
  | _ => some none

/-- A float with a fraction or an exponent. A positive one is in range. -/
def finiteFloat (cs : List Char) : Option (Toml × List Char) := do
  let (negative, cs) := sign cs
  let (whole, cs) ← decimal cs
  let (ds, places, cs, hasFraction) ←
    match cs with
    | '.' :: cs => (digits 10 cs).map fun (ds, rest) => (whole ++ ds, ds.length, rest, true)
    | cs => some (whole, 0, cs, false)
  let e? ← exponent? cs
  match e?, hasFraction with
  | none, false => none
  | none, true => if !negative && isHuge (valueOf 10 ds) (-places) then none else some (.float, cs)
  | some (e, rest), _ =>
    if !negative && isHuge (valueOf 10 ds) (e - places) then none else some (.float, rest)

def specialFloat (cs : List Char) : Option (Toml × List Char) :=
  match (sign cs).2 with
  | 'i' :: 'n' :: 'f' :: rest => some (.float, rest)
  | 'n' :: 'a' :: 'n' :: rest => some (.float, rest)
  | _ => none

/-! ## Dates and times -/

def twoDigits (lo hi : Nat) : List Char → Option (Nat × List Char)
  | a :: b :: cs =>
    if a.isDigit && b.isDigit then
      let n := valueOf 10 [a, b]
      if lo ≤ n && n ≤ hi then some (n, cs) else none
    else none
  | _ => none

def expect (c : Char) : List Char → Option (List Char)
  | d :: cs => if c = d then some cs else none
  | [] => none

def daysIn (year month : Nat) : Nat :=
  if month = 2 then
    if year % 4 = 0 && (year % 100 != 0 || year % 400 = 0) then 29 else 28
  else if month ∈ [4, 6, 9, 11] then 30
  else 31

def date (cs : List Char) : Option (List Char) := do
  let (century, cs) ← twoDigits 0 99 cs
  let (year, cs) ← twoDigits 0 99 cs
  let cs ← expect '-' cs
  let (month, cs) ← twoDigits 1 12 cs
  let cs ← expect '-' cs
  let (_, cs) ← twoDigits 1 (daysIn (century * 100 + year) month) cs
  pure cs

/-- Hours, minutes and seconds; a second may be a leap second and have a fraction. -/
def timeOfDay (cs : List Char) : Option (List Char) := do
  let (_, cs) ← twoDigits 0 23 cs
  let cs ← expect ':' cs
  let (_, cs) ← twoDigits 0 59 cs
  let cs ← expect ':' cs
  let (_, cs) ← twoDigits 0 60 cs
  match cs with
  | '.' :: d :: rest => if d.isDigit then pure (rest.dropWhile Char.isDigit) else none
  | '.' :: [] => none
  | cs => pure cs

def offset : List Char → Option (List Char)
  | 'Z' :: cs => some cs
  | 'z' :: cs => some cs
  | '+' :: cs => hours cs
  | '-' :: cs => hours cs
  | cs => some cs
where
  hours (cs : List Char) : Option (List Char) := do
    let (_, cs) ← twoDigits 0 23 cs
    let cs ← expect ':' cs
    let (_, cs) ← twoDigits 0 59 cs
    pure cs

/-- What may follow a date: a letter or a blank, a time, and an offset. -/
def timeAfterDate : List Char → Option (List Char)
  | c :: cs => if c ∈ ['T', 't', ' '] then (timeOfDay cs).bind offset else none
  | [] => none

def dateOrTime (cs : List Char) : Option (Toml × List Char) :=
  match date cs with
  | some rest => some (.time, (timeAfterDate rest).getD rest)
  | none => (timeOfDay cs).map fun rest => (.time, rest)

def number (cs : List Char) : Option (Toml × List Char) :=
  dateOrTime cs <|> finiteFloat cs <|> specialFloat cs <|> readInteger cs

/-! ## Strings -/

def charOf? (n : Nat) : Option Char := if n.isValidChar then some (Char.ofNat n) else none

def hexChar? (ds : List Char) : Option Char :=
  if ds.all (isDigitOf 16) then charOf? (valueOf 16 ds) else none

def escaped? : Char → Option Char
  | 'b' => some '\x08'
  | 't' => some '\t'
  | 'n' => some '\n'
  | 'f' => some '\x0c'
  | 'r' => some '\r'
  | '"' => some '"'
  | '\\' => some '\\'
  | _ => none

def consChar (c : Char) (r : List Char × List Char) : List Char × List Char := (c :: r.1, r.2)

def basicTail : List Char → Option (List Char × List Char)
  | [] => none
  | '"' :: cs => some ([], cs)
  | '\\' :: 'u' :: a :: b :: c :: d :: cs => do
    let x ← hexChar? [a, b, c, d]
    let r ← basicTail cs
    pure (consChar x r)
  | '\\' :: 'U' :: a :: b :: c :: d :: e :: f :: g :: h :: cs => do
    let x ← hexChar? [a, b, c, d, e, f, g, h]
    let r ← basicTail cs
    pure (consChar x r)
  | '\\' :: c :: cs => do
    let x ← escaped? c
    let r ← basicTail cs
    pure (consChar x r)
  | c :: cs => if isPlain c then (basicTail cs).map (consChar c) else none

def literalTail : List Char → Option (List Char × List Char)
  | [] => none
  | '\'' :: cs => some ([], cs)
  | c :: cs => if isPlain c then (literalTail cs).map (consChar c) else none

/-- What a string of several lines is in the middle of: its text, a line that ended in a
backslash, or the blank lines after one. -/
inductive LineState where
  | text
  | folding
  | folded

/-- A string in three double quotes, after the opening ones. One or two quotes may stand inside
and right before the closing ones. A backslash at the end of a line skips the line end and all
blanks after it. -/
def longBasicTail : LineState → List Char → Option (List Char × List Char)
  | _, [] => none
  | .folding, '\n' :: cs => longBasicTail .folded cs
  | .folding, '\r' :: '\n' :: cs => longBasicTail .folded cs
  | .folding, c :: cs => if isBlank c then longBasicTail .folding cs else none
  | .folded, ' ' :: cs => longBasicTail .folded cs
  | .folded, '\t' :: cs => longBasicTail .folded cs
  | .folded, '\n' :: cs => longBasicTail .folded cs
  | .folded, '\r' :: '\n' :: cs => longBasicTail .folded cs
  | _, '"' :: '"' :: '"' :: '"' :: '"' :: cs => some (['"', '"'], cs)
  | _, '"' :: '"' :: '"' :: '"' :: cs => some (['"'], cs)
  | _, '"' :: '"' :: '"' :: cs => some ([], cs)
  | _, '\\' :: 'u' :: a :: b :: c :: d :: cs => do
    let x ← hexChar? [a, b, c, d]
    let r ← longBasicTail .text cs
    pure (consChar x r)
  | _, '\\' :: 'U' :: a :: b :: c :: d :: e :: f :: g :: h :: cs => do
    let x ← hexChar? [a, b, c, d, e, f, g, h]
    let r ← longBasicTail .text cs
    pure (consChar x r)
  | _, '\\' :: '\r' :: '\n' :: cs => longBasicTail .folded cs
  | _, '\\' :: c :: cs =>
    if isBlank c then longBasicTail .folding cs
    else if c = '\n' then longBasicTail .folded cs
    else do
      let x ← escaped? c
      let r ← longBasicTail .text cs
      pure (consChar x r)
  | _, '\r' :: '\n' :: cs => (longBasicTail .text cs).map (consChar '\n')
  | _, c :: cs =>
    if isPlain c || c == '\n' then (longBasicTail .text cs).map (consChar c) else none

def longLiteralTail : List Char → Option (List Char × List Char)
  | [] => none
  | '\'' :: '\'' :: '\'' :: '\'' :: '\'' :: cs => some (['\'', '\''], cs)
  | '\'' :: '\'' :: '\'' :: '\'' :: cs => some (['\''], cs)
  | '\'' :: '\'' :: '\'' :: cs => some ([], cs)
  | '\r' :: '\n' :: cs => (longLiteralTail cs).map (consChar '\n')
  | c :: cs => if isPlain c || c == '\n' then (longLiteralTail cs).map (consChar c) else none

/-- A line end right after the opening quotes of a long string is no part of it. -/
def skipNewline (cs : List Char) : List Char := (newline? cs).getD cs

def ofText (r : List Char × List Char) : Toml × List Char := (.string (String.ofList r.1), r.2)

def readString : List Char → Option (Toml × List Char)
  | '"' :: '"' :: '"' :: cs => (longBasicTail .text (skipNewline cs)).map ofText
  | '"' :: cs => (basicTail cs).map ofText
  | '\'' :: '\'' :: '\'' :: cs => (longLiteralTail (skipNewline cs)).map ofText
  | '\'' :: cs => (literalTail cs).map ofText
  | _ => none

end Toml
end TypeSolver
