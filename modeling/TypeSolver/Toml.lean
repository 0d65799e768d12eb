import TypeSolver.Assoc

/-!
# TypeSolver.Toml

TOML documents. A document is one table; headers and dotted keys add to it under the rule that no
table is defined twice. How a table came about decides what may still add to it.
-/

namespace TypeSolver

/-- How a table came about: by a header of its own (or as the whole document), by a header of
something inside it, by a dotted key, or in braces as a value. -/
inductive TableOrigin where
  | header
  | implied
  | dotted
  | inline
deriving DecidableEq

/-- Floats, dates and times are recognized, and their values are not kept. A `tables` is an array
of tables that headers build. -/
inductive Toml where
  | string (s : String)
  | integer (n : Int)
  | bool (b : Bool)
  | float
  | time
  | array (items : List Toml)
  | table (origin : TableOrigin) (entries : List (String × Toml))
  | tables (items : List (TableOrigin × List (String × Toml)))

namespace Toml

abbrev Table := TableOrigin × List (String × Toml)

/-- Change the last item of a list; an empty list has none to change. -/
def updateLast {α : Type} (f : α → Option α) : List α → Option (List α)
  | [] => none
  | [a] => (f a).map fun a => [a]
  | a :: as => (updateLast f as).map fun as => a :: as

/-- Change the table at the end of a path, making the tables on the way that are missing. An
array of tables leads on to its last one. A dotted key does not enter a table that has a header
or braces, and nothing enters a value. -/
def descend (dotted : Bool) (f : Table → Option Table) : List String → Table → Option Table
  | [], t => f t
  | key :: keys, (origin, entries) =>
    match Assoc.get? entries key with
    | none =>
      (descend dotted f keys (if dotted then .dotted else .implied, [])).map fun (o, es) =>
        (origin, Assoc.insert entries key (.table o es))
    | some (.table o es) =>
      if o = .inline ∨ (dotted ∧ o = .header) then none
      else
        (descend dotted f keys (o, es)).map fun (o, es) =>
          (origin, Assoc.insert entries key (.table o es))
    | some (.tables ts) =>
      (updateLast (descend dotted f keys) ts).map fun ts =>
        (origin, Assoc.insert entries key (.tables ts))
    | some _ => none

/-- Set a key that is not set. A key with dots goes into a table made by dots, and one without
into a table that is not. -/
def setNew (isDotted : Bool) (key : String) (value : Toml) : Table → Option Table
  | (origin, entries) =>
    if decide (origin = .dotted) == isDotted && !Assoc.contains entries key then
      some (origin, Assoc.insert entries key value)
    else none

def setKey (path : List String) (key : String) (value : Toml) : Table → Option Table :=
  descend true (setNew (!path.isEmpty) key value) path

/-- Define the table `key`. Only a table that other headers implied may be there already. -/
def openTable (key : String) : Table → Option Table
  | (origin, entries) =>
    match Assoc.get? entries key with
    | none => some (origin, Assoc.insert entries key (.table .header []))
    | some (.table .implied es) => some (origin, Assoc.insert entries key (.table .header es))
    | some _ => none

def openItem (key : String) : Table → Option Table
  | (origin, entries) =>
    match Assoc.get? entries key with
    | none => some (origin, Assoc.insert entries key (.tables [(.header, [])]))
    | some (.tables ts) => some (origin, Assoc.insert entries key (.tables (ts ++ [(.header, [])])))
    | some _ => none

end Toml
end TypeSolver
