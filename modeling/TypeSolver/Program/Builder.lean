import TypeSolver.Program

/-!
# TypeSolver.Program.Builder

Building programs piece by piece. A builder numbers the expressions it makes and places them at
its current line.
-/

namespace TypeSolver

structure Builder where
  nextId : UInt32 := 0
  span : Span := {}

namespace Builder

def atLine (b : Builder) (n : UInt64) : Builder := { b with span := .wholeLine n }

def make (b : Builder) (form : ExprForm) : Expr × Builder :=
  (⟨b.nextId, b.span, form⟩, { b with nextId := b.nextId + 1 })

end Builder

def Def.ofBody (name : String) (params : List Pattern) (body : Expr) : Def :=
  ⟨name, params, body, body.span⟩

def Branch.ofBody (pattern : Pattern) (body : Expr) : Branch := ⟨pattern, body, body.span⟩

def Field.zip (names : List String) (values : List Expr) : List Field :=
  (names.zip values).map fun (name, value) => ⟨name, value⟩

def Pattern.asName (p : Pattern) (name : String) : Pattern := ⟨p.span, .named p name⟩

def Pattern.ofForm (form : PatternForm) : Pattern := ⟨{}, form⟩

end TypeSolver
