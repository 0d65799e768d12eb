import TypeSolver.Json

/-!
# TypeSolver.Json.Printer

Writing JSON values, on one line or over several lines with an indent of two blanks.
-/

namespace TypeSolver
namespace Json

def hexDigit (n : Nat) : Char := if n < 10 then Char.ofNat (48 + n) else Char.ofNat (87 + n)

/-- A character inside a string. Quotes, backslashes and control characters are escaped. -/
def escape (c : Char) : List Char :=
  match c with
  | '"' => ['\\', '"']
  | '\\' => ['\\', '\\']
  | '\x08' => ['\\', 'b']
  | '\x0c' => ['\\', 'f']
  | '\n' => ['\\', 'n']
  | '\r' => ['\\', 'r']
  | '\t' => ['\\', 't']
  | c =>
    if c.toNat < 32 then ['\\', 'u', '0', '0', hexDigit (c.toNat / 16), hexDigit (c.toNat % 16)]
    else [c]

def quote (s : String) : String := "\"" ++ String.ofList (s.toList.flatMap escape) ++ "\""

/-- The exact decimal expansion of a finite number, with one digit after the point at least. -/
def floatText (x : Binary64) : String :=
  match x.fraction with
  | (n, d) =>
    let places := max 1 (Nat.log2 d)
    let ds := Nat.toDigits 10 (n * Nat.pow 10 places / d)
    let ds := List.replicate (places + 1 - ds.length) '0' ++ ds
    let whole := ds.take (ds.length - places)
    (if x.isNegative then "-" else "") ++
      String.ofList (whole ++ '.' :: ds.drop (ds.length - places))

def joined (separator : String) (texts : List String) : String := separator.intercalate texts

mutual

def compact : Json → String
  | .null => "null"
  | .bool b => if b then "true" else "false"
  | .int n => toString n
  | .float x => if x.isFinite then floatText x else "null"
  | .string s => quote s
  | .array items => "[" ++ joined "," (compactAll items) ++ "]"
  | .object members => "\x7b" ++ joined "," (compactMembers members) ++ "\x7d"
  | .unreadable => "null"

def compactAll : List Json → List String
  | [] => []
  | j :: js => j.compact :: compactAll js

def compactMembers : List (String × Json) → List String
  | [] => []
  | (name, j) :: ms => (quote name ++ ":" ++ j.compact) :: compactMembers ms

end

def newline (depth : Nat) : String := "\n" ++ String.ofList (List.replicate (2 * depth) ' ')

def block (depth : Nat) (opening closing : String) (texts : List String) : String :=
  if texts.isEmpty then opening ++ closing
  else
    opening ++ joined "," (texts.map fun t => newline (depth + 1) ++ t) ++ newline depth ++ closing

mutual

/-- The value over several lines; an empty array or object stays on one. -/
def pretty (depth : Nat) : Json → String
  | .array items => block depth "[" "]" (prettyAll (depth + 1) items)
  | .object members => block depth "\x7b" "\x7d" (prettyMembers (depth + 1) members)
  | .null => "null"
  | .bool b => if b then "true" else "false"
  | .int n => toString n
  | .float x => if x.isFinite then floatText x else "null"
  | .string s => quote s
  | .unreadable => "null"

def prettyAll (depth : Nat) : List Json → List String
  | [] => []
  | j :: js => pretty depth j :: prettyAll depth js

def prettyMembers (depth : Nat) : List (String × Json) → List String
  | [] => []
  | (name, j) :: ms => (quote name ++ ": " ++ pretty depth j) :: prettyMembers depth ms

end

end Json
end TypeSolver
