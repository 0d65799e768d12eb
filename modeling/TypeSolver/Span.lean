/-!
# TypeSolver.Span

Regions of source text. Lines and columns are 64-bit words.
-/

namespace TypeSolver

structure Position where
  line : UInt64 := 0
  column : UInt64 := 0
deriving DecidableEq

/-- The text from `start` up to, and not including, `stop`. -/
structure Span where
  start : Position := {}
  stop : Position := {}
deriving DecidableEq

namespace Span

def ofCorners (startLine startColumn stopLine stopColumn : UInt64) : Span :=
  ⟨⟨startLine, startColumn⟩, ⟨stopLine, stopColumn⟩⟩

def wholeLine (n : UInt64) : Span := ofCorners n 1 (n + 1) 1

end Span
end TypeSolver
