import TypeSolver.Toml.Scalar

/-!
# TypeSolver.Toml.Reader

Reading TOML text. Each line holds a key and its value, the header of a table, or nothing; a
value in brackets may go over several lines.
-/

namespace TypeSolver
namespace Toml

/-- How deep arrays and tables in braces may be nested, and how many parts a key may have. -/
def nesting : Nat := 79

def comment : List Char → Option (List Char)
  | [] => some []
  | '\n' :: cs => some ('\n' :: cs)
  | '\r' :: '\n' :: cs => some ('\r' :: '\n' :: cs)
  | c :: cs => if isPlain c then comment cs else none

/-- The end of a line: blanks, a comment, and a line end or the end of the text. -/
def lineEnd (cs : List Char) : Option (List Char) := do
  let rest ←
    match skipBlanks cs with
    | '#' :: cs => comment cs
    | cs => some cs
  if rest.isEmpty then some [] else newline? rest

/-- Blanks, comments and line ends inside an array; `fuel` is the length of the text. -/
def skipLines : Nat → List Char → Option (List Char)
  | 0, cs => some cs
  | fuel + 1, cs =>
    match skipBlanks cs with
    | '#' :: cs => (comment cs).bind (skipLines fuel)
    | cs =>
      match newline? cs with
      | some cs => skipLines fuel cs
      | none => some cs

def isBare (c : Char) : Bool := c.isAlphanum || c == '_' || c == '-'

def simpleKey : List Char → Option (String × List Char)
  | '"' :: cs => (basicTail cs).map fun (text, rest) => (String.ofList text, rest)
  | '\'' :: cs => (literalTail cs).map fun (text, rest) => (String.ofList text, rest)
  | cs =>
    match cs.span isBare with
    | ([], _) => none
    | (text, rest) => some (String.ofList text, rest)

/-- A key of at most `parts` parts: all but the last, and the last. -/
def key : Nat → List Char → Option ((List String × String) × List Char)
  | 0, _ => none
  | parts + 1, cs => do
    let (name, rest) ← simpleKey (skipBlanks cs)
    match skipBlanks rest with
    | '.' :: rest => (key parts rest).map fun ((path, last), rest) => ((name :: path, last), rest)
    | rest => pure (([], name), rest)

mutual

def value : Nat → Nat → List Char → Option (Toml × List Char)
  | 0, _, _ => none
  | fuel + 1, room, cs =>
    match cs with
    | '"' :: _ => readString cs
    | '\'' :: _ => readString cs
    | 't' :: 'r' :: 'u' :: 'e' :: rest => some (.bool true, rest)
    | 'f' :: 'a' :: 'l' :: 's' :: 'e' :: rest => some (.bool false, rest)
    | '[' :: rest =>
      if room = 0 then none
      else (items fuel (room - 1) rest).map fun (ts, rest) => (.array ts, rest)
    | '\x7b' :: rest =>
      if room = 0 then none
      else
        match skipBlanks rest with
        | '\x7d' :: rest => some (.table .inline [], rest)
        | rest =>
          (entries fuel (room - 1) (.inline, []) rest).map fun ((origin, es), rest) =>
            (.table origin es, rest)
    | cs => number cs

/-- The items of an array up to the closing bracket; a comma may stand behind the last. -/
def items : Nat → Nat → List Char → Option (List Toml × List Char)
  | 0, _, _ => none
  | fuel + 1, room, cs =>
    match skipLines cs.length cs with
    | some (']' :: rest) => some ([], rest)
    | some cs =>
      match value fuel room cs with
      | none => none
      | some (t, rest) =>
        match skipLines rest.length rest with
        | some (']' :: rest) => some ([t], rest)
        | some (',' :: rest) => (items fuel room rest).map fun (ts, rest) => (t :: ts, rest)
        | _ => none
    | none => none

/-- The entries of a table in braces, one at least, up to the closing brace. -/
def entries : Nat → Nat → Table → List Char → Option (Table × List Char)
  | 0, _, _, _ => none
  | fuel + 1, room, acc, cs =>
    match key nesting cs with
    | some ((path, name), '=' :: rest) =>
      match value fuel room (skipBlanks rest) with
      | none => none
      | some (t, rest) =>
        match setKey path name t acc, skipBlanks rest with
        | some acc, '\x7d' :: rest => some (acc, rest)
        | some acc, ',' :: rest => entries fuel room acc rest
        | _, _ => none
    | _ => none

end

/-- A document that is being read: the path of the current table, and all tables. -/
structure Document where
  current : List String := []
  root : Table := (.header, [])

namespace Document

def set (d : Document) (path : List String) (name : String) (t : Toml) : Option Document :=
  (descend false (setKey path name t) d.current d.root).map fun root => { d with root := root }

def enter (d : Document) (path : List String) (name : String) (add : String → Table → Option Table) :
    Option Document :=
  (descend false (add name) path d.root).map fun root => ⟨path ++ [name], root⟩

end Document

def header (d : Document) : List Char → Option (Document × List Char)
  | '[' :: cs => do
    let ((path, name), rest) ← key nesting cs
    match rest with
    | ']' :: ']' :: rest => (d.enter path name openItem).map fun d => (d, rest)
    | _ => none
  | cs => do
    let ((path, name), rest) ← key nesting cs
    match rest with
    | ']' :: rest => (d.enter path name openTable).map fun d => (d, rest)
    | _ => none

def keyValue (d : Document) (cs : List Char) : Option (Document × List Char) := do
  let ((path, name), rest) ← key nesting cs
  let rest ← expect '=' rest
  let (t, rest) ← value (2 * rest.length + 2) nesting (skipBlanks rest)
  let d ← d.set path name t
  pure (d, rest)

def lines : Nat → Document → List Char → Option Document
  | 0, _, _ => none
  | fuel + 1, d, cs =>
    match skipBlanks cs with
    | [] => some d
    | '#' :: _ => (lineEnd cs).bind (lines fuel d)
    | '[' :: rest => do
      let (d, rest) ← header d rest
      let rest ← lineEnd rest
      lines fuel d rest
    | cs =>
      match newline? cs with
      | some rest => lines fuel d rest
      | none => do
        let (d, rest) ← keyValue d cs
        let rest ← lineEnd rest
        lines fuel d rest

/-- The entries of a document. A byte order mark may stand in front. -/
def read (text : String) : Option (List (String × Toml)) :=
  let cs :=
    match text.toList with
    | '\ufeff' :: cs => cs
    | cs => cs
  (lines (cs.length + 1) {} cs).map fun d => d.root.2

end Toml
end TypeSolver
