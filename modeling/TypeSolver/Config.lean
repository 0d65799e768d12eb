/-!
# TypeSolver.Config

How a program is solved.
-/

namespace TypeSolver

structure Config where
  pathCompression : Bool := true
  /-- How many errors to keep; the first is always kept, and solving runs to the end. -/
  maxErrors : Option Nat := none
deriving DecidableEq

end TypeSolver
