import TypeSolver.Proofs.Generalization

/-!
# TypeSolver.Proofs.Groups

The outermost groups of a program. Their constraint is a chain of boundaries, each around the next,
and no variable belongs to two of them (`Chain`). All variables that are made for a program have a
rank of the inside; rank 0 is left to the environment.
-/

namespace TypeSolver

namespace Constraint

/-- What a group demands is about the variable, or the type of one of its names is. -/
def MentionsGroup (header : Header) (defs : Constraint) (v : Var) : Prop :=
  (∃ e ∈ header, v ∈ e.2.vars) ∨ defs.Mentions v

/-- Boundaries around each other, without demands between them. Those further inside mention no
variable of those around them. -/
inductive Chain : Constraint → Prop where
  | trivial : Chain .trivial
  | letIn {vars : List Var} {header : Header} {defs body : Constraint} :
      (∀ v, MentionsGroup header defs v → ¬ body.Mentions v) → Chain body →
      Chain (.letIn vars header defs body)

end Constraint

namespace Generate

variable {env : Environment} {g g' : Generator}

theorem groups_chain {k : Rank} {n : Nat} (gs : List Group) :
    Produces k n (groups env gs) fun schemes n' _ _ =>
      (schemes.foldr Scheme.around .trivial).Chain ∧
      ∀ v, (schemes.foldr Scheme.around .trivial).Mentions v → n ≤ v ∧ v < n' := by
  induction gs generalizing n with
  | nil => exact .pure fun _ _ => ⟨.trivial, fun _ hv => nomatch hv⟩
  | cons group gs ih =>
    refine (definitions_produces (.any env) group.defs (.inl .intro) (k + 1) n).nested.bind
      fun fs n1 h1 => ih.bind fun rest n2 h2 => .pure fun made place ⟨hchain, hrange⟩ hfs => ?_
    have hall := (hfs (fun _ => False) nofun).joinAll nofun
    have hdefs := Constraint.Sound.recursive hall.constraint hall.env
    have hgroup : ∀ v, Constraint.MentionsGroup (groupScheme fs).header
        (groupScheme fs).qualifier v → n ≤ v ∧ v < n1 := by
      rintro v (⟨e, he, hv⟩ | hv)
      · obtain ⟨hle, hlt, _⟩ := (hall.env e he).2 v hv
        exact ⟨hle, hlt⟩
      · exact (hdefs.mentions v hv).resolve_left id
    refine ⟨.letIn (fun v hv hv' => ?_) hchain, fun v hv => ?_⟩
    · exact absurd (hgroup v hv).2 (Nat.not_lt.mpr (hrange v hv').1)
    · have hin : Constraint.MentionsGroup (groupScheme fs).header (groupScheme fs).qualifier v →
          n ≤ v ∧ v < n2 := fun hv =>
        ⟨(hgroup v hv).1, Nat.lt_of_lt_of_le (hgroup v hv).2 h2⟩
      cases hv with
      | header he hv => exact hin (.inl ⟨_, he, hv⟩)
      | defs hv => exact hin (.inr hv)
      | body hv => exact ⟨h1.trans (hrange v hv).1, (hrange v hv).2⟩

/-- What is made for groups lies inside their boundaries. -/
theorem groups_inside {gs : List Group} {schemes : List Scheme}
    (h : groups env gs g = .ok schemes g') (hg : g.store.Untouched) {v : Var}
    (hv : g.store.size ≤ v) (hv' : v < g'.store.size) :
    ∃ k, g'.store.rank? v = some k ∧ g.rank < k := by
  induction gs generalizing g schemes with
  | nil =>
    obtain ⟨rfl, rfl⟩ := pure_eq_ok h
    exact absurd hv' (Nat.not_lt.mpr hv)
  | cons group gs ih =>
    obtain ⟨fs, _, hnested, h⟩ := bind_eq_ok h
    obtain ⟨g1, hfs, rfl⟩ := nested_eq_ok hnested
    obtain ⟨rest, g2, hrest, h⟩ := bind_eq_ok h
    obtain ⟨rfl, rfl⟩ := pure_eq_ok h
    have hfs := definitions_produces (.any env) group.defs (.inl .intro) _ _ hfs hg rfl rfl
    rcases Nat.lt_or_ge v g1.store.size with hlt | hge
    · rw [Store.rank?, (groups_chain gs hrest hfs.untouched rfl rfl).content v hlt]
      exact hfs.deep v hv hlt
    · rw [← hfs.nested.rank]
      exact ih hrest hfs.untouched hge

end Generate

namespace Environment

variable {env : Environment}

/-- The signatures of all names list the fields of records in order. -/
def Sorted (env : Environment) : Prop := ∀ sig, env.Offers sig → sig.Ordered

theorem Sorted.admits (h : env.Sorted) : Admits env True fun _ t => t.Over fun _ => True where
  var _ := Ty.over_var.mpr .intro
  func := Ty.over_func
  literal l := by cases l <;> exact Ty.over_app.mpr nofun
  list ht := Ty.over_app.mpr fun _ ha => by rw [List.mem_singleton.mp ha]; exact ht
  record _ _ _ _ hs hf _ := Ty.over_record.mpr ⟨hs, hf, fun _ _ => .intro⟩
  signature hsig := ⟨fun _ => .type, fun _ σ t hσ ht =>
    Signature.toTy_over (fun x u hu => by
      obtain ⟨v, rfl, _⟩ := hσ x u hu
      exact Ty.over_var.mpr .intro) (h _ hsig) ht⟩

end Environment

namespace Prepared

variable {program : Program} {env : Environment} {p : Prepared}

theorem ofProgram_chain (h : ofProgram program env = .ok p) : p.constraint.Chain ∧
    ∀ v, p.initialSize ≤ v → v < p.store.size → ∃ k, p.store.rank? v = some k ∧ 0 < k := by
  obtain ⟨table, ctx, s, c, g, htable, hctx, hprogram, rfl⟩ := ofProgram_eq_ok h
  obtain ⟨schemes, g1, hgroups, hpure⟩ := Generate.bind_eq_ok hprogram
  obtain ⟨rfl, rfl⟩ := Generate.pure_eq_ok hpure
  have hctx := initialContext_makes (.any env) hctx (Store.untouched_empty table)
  have hchain := Generate.groups_chain _ hgroups hctx.untouched rfl rfl
  obtain ⟨meant, hmeant⟩ := hchain.places
  exact ⟨(hmeant meant (fun _ _ _ => rfl) _ hchain.untouched.madeAt).1,
    fun v hv hv' => Generate.groups_inside hgroups hctx.untouched hv hv'⟩

end Prepared
end TypeSolver
