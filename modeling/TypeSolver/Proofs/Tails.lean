import TypeSolver.Proofs.PlacedRuns

/-!
# TypeSolver.Proofs.Tails

Rows whose end is not compared. What follows the fields of a record is spoiled if its class was
given up or if it stands for something that is no record; then two rows are taken to agree as soon as
their known fields do.

No class is given up before an error is recorded, whatever the environment is. And where the
environment uses each variable either as a type or behind the fields of records, only records come to
stand there. So the end of a row is left alone only after an error (`spoiled_tail_reported`). With a
variable that is used in both ways, no error need be recorded at all (`unreported_tail`).
-/

namespace TypeSolver

open Relation (ReflTransGen)

/-- Each parameter, and each variable of a signature, is used only as a type or only behind the fields
of records. -/
def Environment.KeepsPlaces (env : Environment) : Prop := ∃ param, env.Kinded ⟨True, param⟩

namespace Store

/-- The second call, on its store, is made in the course of the first. -/
def Nested : Call × Store → Call × Store → Prop :=
  ReflTransGen fun x y => Invokes Completes x.1 x.2 y.1 y.2

theorem Nested.head {c c' : Call} {s s' : Store} {y : Call × Store}
    (h : Invokes Completes c s c' s') (hy : Nested (c', s') y) : Nested (c, s) y :=
  ReflTransGen.head h hy

theorem Nested.stands {K : Kinds} {place : Var → Place} {x y : Call × Store} (h : Nested x y)
    (hs : x.2.Placed K place) (hc : x.1.Stands K place x.2.size) :
    ∃ place', y.2.Placed K place' ∧ y.1.Stands K place' y.2.size := by
  induction h with
  | refl => exact ⟨place, hs, hc⟩
  | tail _ hcall ih =>
    obtain ⟨place1, hs1, hc1⟩ := ih
    obtain ⟨place2, hc2, _⟩ := hcall.tracked (placed_tracker _) completes_keeps ⟨hs1, hc1⟩
    exact ⟨place2, hc2⟩

end Store

theorem Row.Stands.not_spoiled {K : Kinds} {place : Var → Place} {n : Nat} {row : Row}
    (h : row.Stands K place n) (hK : K.strict) : row.tail ≠ .spoiled := by
  intro htail
  have htail' := h.2
  rw [htail] at htail'
  exact htail' hK

namespace Moment

open Store (Call Nested)

variable {program : Program} {env : Environment} {p : Prepared} {config : Config} {fuel : Nat}
  {m : Moment} {l r : Ty} {s : Store}

theorem Compares.nested_stands {K : Kinds} {y : Call × Store} (h : Compares fuel m l r s)
    (hy : Nested (.types l r, s) y) (hp : Prepared.ofProgram program env = .ok p)
    (henv : env.Kinded K) (hm : Steps fuel (p.start config) m) (herr : m.state.errors = []) :
    ∃ place, y.2.Placed K place ∧ y.1.Stands K place y.2.size := by
  obtain ⟨_, hstart⟩ := Prepared.placed_start henv hp config
  obtain ⟨_, _, hplaced⟩ := Steps.placed hm hstart herr
  obtain ⟨_, hg, hlr⟩ := h.stands hplaced
  exact hy.stands hg.placed hlr

/-- Two rows are compared, and what follows the fields of one of them is spoiled. If a class was given
up, then an error has been recorded before; and so it has if the environment keeps places apart. -/
theorem spoiled_tail_reported (hp : Prepared.ofProgram program env = .ok p)
    (hm : Steps fuel (p.start config) m) (hlr : Compares fuel m l r s) {rowL rowR : Row} {l' r' : Ty}
    {s' : Store} (hcall : Nested (.types l r, s) (.rows rowL rowR l' r', s'))
    (hspoiled : rowL.tail = .spoiled ∨ rowR.tail = .spoiled) :
    (¬ s'.Healthy → m.state.errors ≠ []) ∧ (env.KeepsPlaces → m.state.errors ≠ []) := by
  refine ⟨fun hsick herr => ?_, fun ⟨param, henv⟩ herr => ?_⟩
  · obtain ⟨_, hs', _⟩ := hlr.nested_stands hcall hp env.kinded_loose hm herr
    exact hsick hs'.healthy
  · obtain ⟨_, _, hL, hR⟩ := hlr.nested_stands hcall hp henv hm herr
    exact hspoiled.elim (hL.not_spoiled .intro) (hR.not_spoiled .intro)

/-- Two records that go on alike. -/
def alikeRecords : Environment where
  values := [("f", .func (.record [] (some "a"))
    (.func (.record [] (some "a")) (.record [] (some "a"))))]

/-- A record that contains itself goes on as an empty one. -/
def circular : Program where
  groups := [
    ⟨[{ name := "main", params := [], span := {},
        body := ⟨0, {}, .apply ⟨1, {}, .var "f"⟩
          [⟨2, {}, .record [⟨"z", ⟨3, {}, .var "main"⟩⟩]⟩, ⟨4, {}, .record []⟩]⟩ }]⟩]

theorem keepsPlaces_alikeRecords : alikeRecords.KeepsPlaces := by
  refine ⟨fun _ _ _ => .type, nofun, fun sig hsig => ⟨fun _ => .row, ?_⟩, .refl⟩
  rcases hsig with ⟨_, _, hmem, _⟩ | ⟨name, hmem⟩
  · cases hmem
  · cases List.mem_singleton.mp hmem
    have hrecord : (Signature.record [] (some "a")).Kinded ⟨True, fun _ _ _ => .type⟩
        (fun _ p => Kinds.Same ⟨True, fun _ _ _ => .type⟩ .row p) .type :=
      .record nofun fun _ _ => .refl
    exact .func .refl hrecord (.func .refl hrecord hrecord)

def circularStore : Store where
  slots := #[.root (.unbound 0 (some "a")), .root (.bound (.record [] (some 5))), .root .poisoned,
    .root (.bound (.record [] (some 5))), .link 1, .root .poisoned]

/-- The error about the circular record comes before its end is left alone. -/
theorem spoiled_tail_reported_circular : ∃ p m,
    Prepared.ofProgram circular alikeRecords = .ok p ∧ Steps 20 (p.start {}) m ∧
    Compares 20 m (.var 3) (.record [] none) circularStore ∧
    Nested (.types (.var 3) (.record [] none), circularStore)
      (.rows ⟨[], .spoiled⟩ ⟨[], .closed⟩ (.record [] (some 5)) (.record [] none), circularStore) ∧
    alikeRecords.KeepsPlaces ∧ m.state.errors ≠ [] := by
  obtain ⟨p, m, hrun, hlr⟩ : ∃ p m,
      Prepared.afterSteps 20 9 circular alikeRecords = some (p, m) ∧
      Compares 20 m (.var 3) (.record [] none) circularStore := by
    generalize hrun : Prepared.afterSteps 20 9 _ _ = o
    cbv at hrun
    exact ⟨_, _, hrun.symm, .equal rfl⟩
  obtain ⟨hp, hsteps⟩ := Prepared.steps_of_afterSteps hrun
  have hfind : circularStore.find 3 = (3, circularStore) := rfl
  have hrow : circularStore.gather 2 [] (some 5) = some (⟨[], .spoiled⟩, circularStore) := rfl
  have hcall : Nested (.types (.var 3) (.record [] none), circularStore)
      (.rows ⟨[], .spoiled⟩ ⟨[], .closed⟩ (.record [] (some 5)) (.record [] none), circularStore) :=
    .head (.varLeft rfl) (.head (.bound hfind rfl)
      (.head (.record (k := 1) rfl rfl hrow rfl) .refl))
  exact ⟨p, m, hp, hsteps, hlr, hcall, keepsPlaces_alikeRecords,
    (spoiled_tail_reported hp hsteps hlr hcall (.inl rfl)).2 keepsPlaces_alikeRecords⟩

/-- The argument of a function is a type, and stands behind a field of the result. -/
def fieldBefore : Environment where
  values := [("f", .func (.var "a") (.record [("x", .con "Int" [])] (some "a")))]

/-- An integer comes to stand there, and the result is asked for another field. -/
def integerTail : Program where
  groups := [
    ⟨[{ name := "r", params := [], span := {},
        body := ⟨0, {}, .apply ⟨1, {}, .var "f"⟩ [⟨2, {}, .literal (.int 3)⟩]⟩ }]⟩,
    ⟨[{ name := "main", params := [], span := {}, body := ⟨3, {}, .access ⟨4, {}, .var "r"⟩ "y"⟩ }]⟩]

def integerTailStore : Store where
  slots := #[.root (.unbound 0 (some "a")),
    .root (.bound (.record [("x", .app "Int" [])] (some 5))), .link 5, .root (.unbound 1 none),
    .root (.unbound 1 none), .root (.bound (.app "Int" []))]

/-- A record with a field `x` is taken to agree with one that has a field `y`, because an integer
stands behind its field; no error is recorded before, and the program gets types. -/
theorem unreported_tail : ∃ p m,
    Prepared.ofProgram integerTail fieldBefore = .ok p ∧ Steps 20 (p.start {}) m ∧
    Compares 20 m (.record [("y", .var 3)] (some 4)) (.var 1) integerTailStore ∧
    Nested (.types (.record [("y", .var 3)] (some 4)) (.var 1), integerTailStore)
      (.rows ⟨[("y", .var 3)], .opened 4⟩ ⟨[("x", .app "Int" [])], .spoiled⟩
        (.record [("y", .var 3)] (some 4)) (.record [("x", .app "Int" [])] (some 5)),
        integerTailStore) ∧
    Store.unifyRows 20 ⟨[("y", .var 3)], .opened 4⟩ ⟨[("x", .app "Int" [])], .spoiled⟩
      (.record [("y", .var 3)] (some 4)) (.record [("x", .app "Int" [])] (some 5))
      integerTailStore = .unified integerTailStore ∧
    m.state.errors = [] ∧
    ∃ typed, inferProgram 20 integerTail fieldBefore {} = some (.ok typed) := by
  obtain ⟨p, m, hrun, hlr, herr⟩ : ∃ p m,
      Prepared.afterSteps 20 17 integerTail fieldBefore = some (p, m) ∧
      Compares 20 m (.record [("y", .var 3)] (some 4)) (.var 1) integerTailStore ∧
      m.state.errors = [] := by
    generalize hrun : Prepared.afterSteps 20 17 _ _ = o
    cbv at hrun
    exact ⟨_, _, hrun.symm, .instanceOf rfl rfl rfl rfl, rfl⟩
  obtain ⟨hp, hsteps⟩ := Prepared.steps_of_afterSteps hrun
  have hfind : integerTailStore.find 1 = (1, integerTailStore) := rfl
  have hleft : integerTailStore.gather 3 [("y", .var 3)] (some 4) =
      some (⟨[("y", .var 3)], .opened 4⟩, integerTailStore) := rfl
  have hright : integerTailStore.gather 3 [("x", .app "Int" [])] (some 5) =
      some (⟨[("x", .app "Int" [])], .spoiled⟩, integerTailStore) := rfl
  refine ⟨p, m, hp, hsteps, hlr, .head (.varRight rfl) (.head (.bound hfind rfl)
    (.head (.record (k := 1) rfl rfl hleft hright) .refl)), by cbv, herr, ?_⟩
  generalize htyped : inferProgram 20 integerTail fieldBefore {} = typed
  cbv at htyped
  exact ⟨_, htyped.symm⟩

end Moment
end TypeSolver
