import TypeSolver.Json.Number

/-!
# TypeSolver.Json.Reader

Reading JSON text. The text holds one value, with blanks, tabs and line ends between its parts
and around it, and nothing else.
-/

namespace TypeSolver
namespace Json

def isBlank (c : Char) : Bool := c == ' ' || c == '\t' || c == '\n' || c == '\r'

def skipBlanks (cs : List Char) : List Char := cs.dropWhile isBlank

/-- The characters of a string up to its closing quote, escapes as they are written. Control
characters are escaped always. -/
def quoted : List Char → Option (List Char × List Char)
  | [] => none
  | '"' :: cs => some ([], cs)
  | '\\' :: c :: cs => (quoted cs).map fun (raw, rest) => ('\\' :: c :: raw, rest)
  | c :: cs =>
    if c.toNat < 32 then none else (quoted cs).map fun (raw, rest) => (c :: raw, rest)

def hexDigit? (c : Char) : Option Nat :=
  if '0' ≤ c ∧ c ≤ '9' then some (c.toNat - 48)
  else if 'a' ≤ c ∧ c ≤ 'f' then some (c.toNat - 87)
  else if 'A' ≤ c ∧ c ≤ 'F' then some (c.toNat - 55)
  else none

def unit? (a b c d : Char) : Option Nat := do
  let a ← hexDigit? a
  let b ← hexDigit? b
  let c ← hexDigit? c
  let d ← hexDigit? d
  pure (((a * 16 + b) * 16 + c) * 16 + d)

def isHighSurrogate (u : Nat) : Bool := 0xD800 ≤ u && u < 0xDC00

def isLowSurrogate (u : Nat) : Bool := 0xDC00 ≤ u && u < 0xE000

def escaped? : Char → Option Char
  | '"' => some '"'
  | '\\' => some '\\'
  | '/' => some '/'
  | 'b' => some '\x08'
  | 'f' => some '\x0c'
  | 'n' => some '\n'
  | 'r' => some '\r'
  | 't' => some '\t'
  | _ => none

/-- A character of a string, or a unit of UTF-16 that was escaped. -/
inductive StringUnit where
  | plain (c : Char)
  | code (u : Nat)

/-- The parts of the inside of a string. An unknown escape is an error. -/
def unescape : List Char → Option (List StringUnit)
  | [] => some []
  | '\\' :: 'u' :: a :: b :: c :: d :: cs => do
    let u ← unit? a b c d
    let us ← unescape cs
    pure (.code u :: us)
  | '\\' :: c :: cs => do
    let e ← escaped? c
    let us ← unescape cs
    pure (.plain e :: us)
  | c :: cs => do
    let us ← unescape cs
    pure (.plain c :: us)

def loneUnit (u : Nat) : Option Char :=
  if isHighSurrogate u || isLowSurrogate u then none else some (Char.ofNat u)

/-- The characters of a list of units, `none` at half of a surrogate pair. A high surrogate makes
one character with a low one right after it. -/
def pairUp : List StringUnit → List (Option Char)
  | [] => []
  | .plain c :: us => some c :: pairUp us
  | .code u :: us =>
    match us.head? with
    | some (.code v) =>
      if isHighSurrogate u && isLowSurrogate v then
        some (Char.ofNat (0x10000 + (u - 0xD800) * 0x400 + (v - 0xDC00))) :: (pairUp us).tail
      else loneUnit u :: pairUp us
    | _ => loneUnit u :: pairUp us

def textOf? (cs : List (Option Char)) : Option String :=
  if cs.all Option.isSome then some (String.ofList (cs.filterMap id)) else none

/-- A string after its opening quote: its text, if it has one, and the rest. -/
def stringTail (cs : List Char) : Option (Option String × List Char) := do
  let (raw, rest) ← quoted cs
  let units ← unescape raw
  pure (textOf? (pairUp units), rest)

def ofMembers (members : List (Option String × Json)) : Json :=
  if members.all fun (name, _) => name.isSome then
    .object (members.filterMap fun (name, j) => name.map fun name => (name, j))
  else .unreadable

mutual

def value : Nat → List Char → Option (Json × List Char)
  | 0, _ => none
  | fuel + 1, cs =>
    match skipBlanks cs with
    | 'n' :: 'u' :: 'l' :: 'l' :: rest => some (.null, rest)
    | 't' :: 'r' :: 'u' :: 'e' :: rest => some (.bool true, rest)
    | 'f' :: 'a' :: 'l' :: 's' :: 'e' :: rest => some (.bool false, rest)
    | '"' :: rest =>
      (stringTail rest).map fun (text, rest) => (text.elim .unreadable .string, rest)
    | '[' :: rest =>
      match skipBlanks rest with
      | ']' :: rest => some (.array [], rest)
      | rest => (items fuel rest).map fun (js, rest) => (.array js, rest)
    | '\x7b' :: rest =>
      match skipBlanks rest with
      | '\x7d' :: rest => some (.object [], rest)
      | rest => (members fuel rest).map fun (ms, rest) => (ofMembers ms, rest)
    | rest => number rest

def items : Nat → List Char → Option (List Json × List Char)
  | 0, _ => none
  | fuel + 1, cs =>
    match value fuel cs with
    | none => none
    | some (j, rest) =>
      match skipBlanks rest with
      | ']' :: rest => some ([j], rest)
      | ',' :: rest => (items fuel rest).map fun (js, rest) => (j :: js, rest)
      | _ => none

def members : Nat → List Char → Option (List (Option String × Json) × List Char)
  | 0, _ => none
  | fuel + 1, cs =>
    match skipBlanks cs with
    | '"' :: rest =>
      match stringTail rest with
      | none => none
      | some (name, rest) =>
        match skipBlanks rest with
        | ':' :: rest =>
          match value fuel rest with
          | none => none
          | some (j, rest) =>
            match skipBlanks rest with
            | '\x7d' :: rest => some ([(name, j)], rest)
            | ',' :: rest => (members fuel rest).map fun (ms, rest) => ((name, j) :: ms, rest)
            | _ => none
        | _ => none
    | _ => none

end

/-- The value of a text. Every nested call is for a character of the text, or for an item or
member that takes one at least. -/
def read (text : String) : Option Json :=
  let cs := text.toList
  match value (2 * cs.length + 2) cs with
  | some (j, rest) => if (skipBlanks rest).isEmpty then some j else none
  | none => none

end Json
end TypeSolver
