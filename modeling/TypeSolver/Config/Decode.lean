import TypeSolver.Config
import TypeSolver.Toml.Reader

/-!
# TypeSolver.Config.Decode

Configurations from TOML. The table `solver` holds the settings, and what is not known is left
alone.
-/

namespace TypeSolver
namespace Config

def asBool : Toml → Option Bool
  | .bool b => some b
  | _ => none

def asCount : Toml → Option Nat
  | .integer n => if 0 ≤ n then some n.toNat else none
  | _ => none

/-- A setting of its own form, or the default if there is none. -/
def setting {α : Type} (default : α) (decode : Toml → Option α) : Option Toml → Option α
  | none => some default
  | some t => decode t

def ofSettings (pathCompression maxErrors : Option Toml) : Option Config := do
  let compression ← setting true asBool pathCompression
  let count ← setting none (fun t => (asCount t).map some) maxErrors
  pure ⟨compression, count⟩

/-- The settings in a table by name, or in an array by position. A date or a time counts as a
table that holds no setting. -/
def ofToml : Toml → Option Config
  | .table _ entries =>
    ofSettings (Assoc.get? entries "path_compression") (Assoc.get? entries "max_errors")
  | .array items => ofSettings items[0]? items[1]?
  | .time => ofSettings none none
  | _ => none

def read (text : String) : Option Config :=
  match Toml.read text with
  | none => none
  | some entries => setting {} ofToml (Assoc.get? entries "solver")

end Config
end TypeSolver
