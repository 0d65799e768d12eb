import TypeSolver.Proofs.Decoding

/-!
# TypeSolver.Proofs.RoundTrip

Programs, signatures and aliases survive being encoded and decoded, with any of the members left
out that have their defaults.
-/

namespace TypeSolver

open Json

/-- Programs and all their parts, signatures and aliases are decoded from their encodings, and from
these without any of their defaults. The fields of a record type are those of a map, in order. -/
theorem encodings_roundTrip :
    (∀ p : Program, Decodes nesting (Program.ofJson nesting) p.toJson p) ∧
      (∀ g : Group, Decodes nesting (Group.ofJson nesting) g.toJson g) ∧
      (∀ d : Def, Decodes nesting (Def.ofJson nesting) d.toJson d) ∧
      (∀ e : Expr, Decodes nesting (Expr.ofJson nesting) e.toJson e) ∧
      (∀ b : Branch, Decodes nesting (Branch.ofJson nesting) b.toJson b) ∧
      (∀ f : Field, Decodes nesting (Field.ofJson nesting) f.toJson f) ∧
      (∀ p : Pattern, Decodes nesting (Pattern.ofJson nesting) p.toJson p) ∧
      (∀ t : Signature, t.Ordered → Decodes nesting (Signature.ofJson nesting) t.toJson t) ∧
      ∀ a : Alias, a.body.Ordered → Decodes nesting (Alias.ofJson nesting) a.toJson a :=
  have hle := Nat.le_refl nesting
  ⟨fun p => p.decodes hle, fun g => g.decodes hle, fun d => d.decodes hle, fun e => e.decodes hle,
    fun b => b.decodes hle, fun f => f.decodes hle, fun p => p.decodes hle,
    fun _ ht => Signature.decodes ht hle, fun _ ha => Alias.decodes ha hle⟩

def wide : Binary64 := ⟨0x4320000000000001⟩

def guardedBody : Expr :=
  ⟨1, {}, .case ⟨2, .wholeLine 3, .literal (.float wide)⟩
    [⟨⟨{}, .ctor "None" []⟩, ⟨4, {}, .literal (.int (-7))⟩, {}⟩]⟩

def guarded : Program := ⟨[⟨[⟨"a\"\n\x01", [], guardedBody, {}⟩]⟩]⟩

/-- An encoding of `guarded`. Of the members that have their defaults, only the span of the last
expression is given. -/
def guardedJson : Json :=
  .object [("groups", .array [.object [("defs", .array [.object [("name", .string "a\"\n\x01"),
    ("body", .object [("id", .nat 1), ("kind", .string "case"),
      ("scrutinee", .object [("id", .nat 2), ("span", (Span.wholeLine 3).toJson),
        ("kind", .string "literal"), ("value", (Literal.float wide).toJson)]),
      ("branches", .array [.object [
        ("pattern", .object [("kind", .string "ctor"), ("name", .string "None")]),
        ("body", .object [("id", .nat 4), ("span", ({} : Span).toJson),
          ("kind", .string "literal"), ("value", (Literal.int (-7)).toJson)])]])])]])]])]

theorem guardedJson_abridged : Abridged guarded.toJson guardedJson := by
  have hpattern : Abridged (Pattern.toJson ⟨{}, .ctor "None" []⟩)
      (.object [("kind", .string "ctor"), ("name", .string "None")]) :=
    .object (.omitted (.head _) (.kept .self (.kept .self (.omitted (.tail _ (.head _)) .nil))))
  have hbody : Abridged guardedBody.toJson _ :=
    .object (.kept .self (.omitted (.head _) (.kept .self (.kept .self (.kept (.array (.cons
      (.object (.kept hpattern (.kept .self (.omitted (.head _) .nil)))) .nil)) .nil)))))
  have hdef : Abridged (Def.toJson ⟨"a\"\n\x01", [], guardedBody, {}⟩) _ :=
    .object (.kept .self (.omitted (.tail _ (.head _)) (.kept hbody (.omitted (.head _) .nil))))
  exact .object (.kept (.array (.cons (.object (.kept (.array (.cons hdef .nil)) .nil)) .nil)) .nil)

def point : Alias := ⟨[], .record [("x", .con "Float" []), ("y", .con "Float" [])] none⟩

/-- An encoding of `point`. Only the empty arguments of the type of `y` are given. -/
def pointJson : Json :=
  .object [("body", .object [("kind", .string "record"), ("fields", .object
    [("x", .object [("kind", .string "con"), ("name", .string "Float")]),
      ("y", .object [("kind", .string "con"), ("name", .string "Float"), ("args", .array [])])])])]

theorem pointJson_abridged : Abridged point.toJson pointJson := by
  have hx : Abridged (Signature.toJson (.con "Float" []))
      (.object [("kind", .string "con"), ("name", .string "Float")]) :=
    .object (.kept .self (.kept .self (.omitted (.head _) .nil)))
  have hbody : Abridged point.body.toJson _ :=
    .object (.kept .self (.kept (.object (.kept hx (.kept .self .nil)))
      (.omitted (.tail _ (.head _)) .nil)))
  exact .object (.omitted (.tail _ (.head _)) (.kept hbody .nil))

theorem point_ordered : point.body.Ordered := by
  have hsorted : ["x", "y"].Pairwise (· < ·) := by decide
  refine .record hsorted fun f hf => ?_
  simp only [List.mem_cons, List.not_mem_nil, or_false] at hf
  obtain rfl | rfl := hf <;> exact .con (by simp)

theorem encodings_roundTrip_guarded :
    Abridged guarded.toJson guardedJson ∧ guardedJson.fits nesting = true ∧
      Program.ofJson nesting guardedJson = some guarded ∧
      point.body.Ordered ∧ Abridged point.toJson pointJson ∧ pointJson.fits nesting = true ∧
      Alias.ofJson nesting pointJson = some point := by
  have htrips := encodings_roundTrip
  have hguarded := htrips.1 guarded _ guardedJson_abridged rfl
  have hpoint := htrips.2.2.2.2.2.2.2.2 point point_ordered _ pointJson_abridged rfl
  exact ⟨guardedJson_abridged, rfl, hguarded, point_ordered, pointJson_abridged, rfl, hpoint⟩

end TypeSolver
