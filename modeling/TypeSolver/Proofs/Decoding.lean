import TypeSolver.Proofs.Abridged
import TypeSolver.Proofs.Terms
import TypeSolver.Signature.Decode

/-!
# TypeSolver.Proofs.Decoding

Decoding undoes encoding. Whatever defaults were left out, a value that is not nested too deeply is
decoded to the program, or the part of one, that it is an encoding of. The inductions are on how
deep the value is nested, since that bounds how deep a decoder may go.
-/

namespace TypeSolver

open Json

variable {room fuel n : Nat} {ms ms' : List (String × Json)}

theorem asUInt64_decodes (n : UInt64) : Decodes room asUInt64 (.nat n.toNat) n := by
  rintro _ ⟨⟩ _
  have hlt : (n.toNat : Int) < 0x10000000000000000 := by have := n.toNat_lt; omega
  simp [asUInt64, asIntIn, Json.nat, hlt]

theorem asUInt32_decodes (n : UInt32) : Decodes room asUInt32 (.nat n.toNat) n := by
  rintro _ ⟨⟩ _
  have hlt : (n.toNat : Int) < 0x100000000 := by have := n.toNat_lt; omega
  simp [asUInt32, asIntIn, Json.nat, hlt]

theorem asInt64_int (n : Int64) : asInt64 (.int n.toInt) = some n := by
  have hle := n.le_toInt
  have hlt := n.toInt_lt
  simp only [asInt64, asIntIn]
  rw [if_pos (by omega), Option.map_some, Int64.ofInt_toInt]

theorem Position.decodes (p : Position) (h : room ≤ n ∨ 1 ≤ n) :
    Decodes room (Position.ofJson n) p.toJson p := by
  refine .object (by simp [Assoc.keys]) ?_
  rintro r ms rfl hms
  obtain ⟨n, rfl⟩ : ∃ m, n = m + 1 := ⟨n - 1, by omega⟩
  exact hms.asStruct <| hms.required rfl (asUInt64_decodes p.line) <|
    hms.required rfl (asUInt64_decodes p.column) rfl

theorem Span.decodes (s : Span) (h : room ≤ n ∨ 2 ≤ n) :
    Decodes room (Span.ofJson n) s.toJson s := by
  refine .object (by simp [Assoc.keys]) ?_
  rintro r ms rfl hms
  obtain ⟨n, rfl⟩ : ∃ m, n = m + 1 := ⟨n - 1, by omega⟩
  exact hms.asStruct <| hms.required rfl (s.start.decodes (by omega)) <|
    hms.required rfl (s.stop.decodes (by omega)) rfl

theorem Span.ofJson_toJson (s : Span) : Span.ofJson 2 s.toJson = some s :=
  s.decodes (.inr le_rfl) s.toJson .self (rfl : s.toJson.fits 2 = true)

theorem Span.eq_of_toJson_eq {s s' : Span} (h : s.toJson = s'.toJson) : s = s' := by
  have hs := s.ofJson_toJson
  rw [h, s'.ofJson_toJson] at hs
  exact (Option.some.inj hs).symm

theorem Literal.decodes (l : Literal) : Decodes room (Literal.ofJson (n + 1)) l.toJson l := by
  intro j hj _
  obtain rfl : j = l.toJson := by
    cases l <;> cases hj with
    | self => rfl
    | object h =>
      cases h with
      | kept h h' => cases h; cases h'; rfl
      | omitted h => simpa using defaults_subset _ h
  cases l with
  | int n => rw [Literal.toJson, Literal.ofJson, asInt64_int]; rfl
  | char c => simp [Literal.toJson, Literal.ofJson, asChar]
  | _ => rfl

theorem Json.Part.span {α : Type} {span : Span} {spanOf : Json → Option Span}
    {f : Span → Option α} {b : Option α} (h : Part room ms ms')
    (hget : Assoc.get? ms "span" = some span.toJson) (hspan : Decodes room spanOf span.toJson span)
    (hf : f span = b) : Json.optional ms' "span" {} spanOf >>= f = b := by
  refine h.optional hget (fun hmem => Span.eq_of_toJson_eq ?_) hspan hf
  simpa using defaults_subset _ hmem

theorem map_of_cons {α β : Type} {f : α → β} {g : List α → List β} (hnil : g [] = [])
    (hcons : ∀ a as, g (a :: as) = f a :: g as) (as : List α) : g as = as.map f := by
  induction as with
  | nil => exact hnil
  | cons a as ih => rw [hcons, ih, List.map_cons]

theorem Pattern.toJsonList_eq (ps : List Pattern) : Pattern.toJsonList ps = ps.map Pattern.toJson :=
  map_of_cons rfl (fun _ _ => rfl) ps

theorem Expr.toJsonList_eq (es : List Expr) : Expr.toJsonList es = es.map Expr.toJson :=
  map_of_cons rfl (fun _ _ => rfl) es

theorem Def.toJsonList_eq (ds : List Def) : Def.toJsonList ds = ds.map Def.toJson :=
  map_of_cons rfl (fun _ _ => rfl) ds

theorem Branch.toJsonList_eq (bs : List Branch) : Branch.toJsonList bs = bs.map Branch.toJson :=
  map_of_cons rfl (fun _ _ => rfl) bs

theorem Field.toJsonList_eq (fs : List Field) : Field.toJsonList fs = fs.map Field.toJson :=
  map_of_cons rfl (fun _ _ => rfl) fs

theorem Pattern.nodup_keys (span : Span) (form : PatternForm) :
    (Assoc.keys (("span", span.toJson) :: form.members)).Nodup := by
  cases form <;> simp [PatternForm.members, Assoc.keys]

theorem Pattern.decodes_part (p : Pattern) (hle : room ≤ fuel) :
    Decodes room (Pattern.ofPart fuel) p.toJson p := by
  induction room using Nat.strong_induction_on generalizing fuel p with
  | _ room ih =>
    obtain ⟨span, form⟩ := p
    refine .object (nodup_keys span form) ?_
    rintro r ms rfl hms
    obtain ⟨fuel, rfl⟩ := Nat.exists_eq_add_of_le' (Nat.le_of_add_left_le hle)
    have ih (p : Pattern) : Decodes r (Pattern.ofPart fuel) p.toJson p :=
      ih r (Nat.lt_succ_self r) p (Nat.le_of_succ_le_succ hle)
    have hspan : Decodes r (Span.ofJson spanRoom) span.toJson span := span.decodes (.inr le_rfl)
    cases form with
    | wildcard => exact hms.kindMembers rfl (by decide) <| hms.span rfl hspan rfl
    | var name =>
      exact hms.kindMembers rfl (by decide) <| hms.span rfl hspan <| hms.string rfl rfl
    | literal value =>
      exact hms.kindMembers rfl (by decide) <| hms.span rfl hspan <| hms.required rfl value.decodes rfl
    | ctor name args =>
      refine hms.kindMembers rfl (by decide) <| hms.span rfl hspan <| hms.string rfl <|
        hms.optional rfl (fun hmem => ?_) (.list (toJsonList_eq args) fun p _ => ih p) rfl
      simpa [toJsonList_eq] using defaults_subset _ hmem
    | record fields =>
      exact hms.kindMembers rfl (by decide) <| hms.span rfl hspan <|
        hms.required rfl (.strings fields) rfl
    | named inner name =>
      exact hms.kindMembers rfl (by decide) <| hms.span rfl hspan <| hms.required rfl (ih inner) <|
        hms.string rfl rfl

section Members

variable {bodyOf : Json → Option Expr} {spanOf : Json → Option Span}

theorem Def.decodes_members (d : Def) {paramsOf : Json → Option (List Pattern)}
    (hparams : Decodes room paramsOf (.array (Pattern.toJsonList d.params)) d.params)
    (hbody : Decodes room bodyOf d.body.toJson d.body)
    (hspan : Decodes room spanOf d.span.toJson d.span) :
    Decodes (room + 1) (Def.ofMembers paramsOf bodyOf spanOf) d.toJson d := by
  obtain ⟨name, params, body, span⟩ := d
  refine .object (by simp [Assoc.keys]) ?_
  rintro _ ms ⟨⟩ hms
  refine hms.asStruct <| hms.string rfl <| hms.optional rfl (fun hmem => ?_) hparams <|
    hms.required rfl hbody <| hms.span rfl hspan rfl
  simpa [Pattern.toJsonList_eq] using defaults_subset _ hmem

theorem Branch.decodes_members (b : Branch) {patternOf : Json → Option Pattern}
    (hpattern : Decodes room patternOf b.pattern.toJson b.pattern)
    (hbody : Decodes room bodyOf b.body.toJson b.body)
    (hspan : Decodes room spanOf b.span.toJson b.span) :
    Decodes (room + 1) (Branch.ofMembers patternOf bodyOf spanOf) b.toJson b := by
  obtain ⟨pattern, body, span⟩ := b
  refine .object (by simp [Assoc.keys]) ?_
  rintro _ ms ⟨⟩ hms
  exact hms.asStruct <| hms.required rfl hpattern <| hms.required rfl hbody <| hms.span rfl hspan rfl

theorem Field.decodes_members (f : Field) (hvalue : Decodes room bodyOf f.value.toJson f.value) :
    Decodes (room + 1) (Field.ofMembers bodyOf) f.toJson f := by
  obtain ⟨name, value⟩ := f
  refine .object (by simp [Assoc.keys]) ?_
  rintro _ ms ⟨⟩ hms
  exact hms.asStruct <| hms.string rfl <| hms.required rfl hvalue rfl

end Members

theorem Expr.nodup_keys (id : UInt32) (span : Span) (form : ExprForm) :
    (Assoc.keys (("id", .nat id.toNat) :: ("span", span.toJson) :: form.members)).Nodup := by
  cases form <;> simp [ExprForm.members, Assoc.keys]

theorem Expr.formOfPart_eq {id : UInt32} {span : Span} {form : ExprForm} (hroom : room ≤ nesting)
    (h : Part room (("id", .nat id.toNat) :: ("span", span.toJson) :: form.members) ms)
    (hexpr : ∀ e : Expr, Decodes room (Expr.ofPart fuel) e.toJson e) :
    ∃ kind, Assoc.get? form.members "kind" = some (.string kind) ∧ kind ∈ Expr.kinds ∧
      Expr.formOfPart (fuel + 1) kind ms = some form := by
  have hspan (span : Span) : Decodes room (Span.ofJson spanRoom) span.toJson span :=
    span.decodes (.inr le_rfl)
  have hpattern (p : Pattern) : Decodes room (Pattern.ofPart nesting) p.toJson p :=
    p.decodes_part hroom
  have hpatterns (ps : List Pattern) :
      Decodes room (asList (Pattern.ofPart nesting)) (.array (Pattern.toJsonList ps)) ps :=
    .list (Pattern.toJsonList_eq ps) fun p _ => hpattern p
  have hdef (d : Def) :=
    (d.decodes_members (hpatterns d.params) (hexpr d.body) (hspan d.span)).succ
  have hbranch (b : Branch) :=
    (b.decodes_members (hpattern b.pattern) (hexpr b.body) (hspan b.span)).succ
  have hfield (f : Field) := (f.decodes_members (hexpr f.value)).succ
  have hkept {name j} : name ≠ "span" → (name, j) ∉ [("span", Span.toJson {})] := by
    simp +contextual
  cases form with
  | literal value => exact ⟨_, rfl, by decide, h.required rfl value.decodes rfl⟩
  | var name => exact ⟨_, rfl, by decide, h.string rfl rfl⟩
  | lambda params body =>
    exact ⟨_, rfl, by decide, h.kept rfl (hkept (by decide)) (hpatterns params) <|
      h.required rfl (hexpr body) rfl⟩
  | apply func args =>
    exact ⟨_, rfl, by decide, h.required rfl (hexpr func) <| h.kept rfl (hkept (by decide))
      (.list (Expr.toJsonList_eq args) fun e _ => hexpr e) rfl⟩
  | letIn defs body =>
    exact ⟨_, rfl, by decide, h.required rfl (.list (Def.toJsonList_eq defs) fun d _ => hdef d) <|
      h.required rfl (hexpr body) rfl⟩
  | case scrutinee branches =>
    exact ⟨_, rfl, by decide, h.required rfl (hexpr scrutinee) <|
      h.required rfl (.list (Branch.toJsonList_eq branches) fun b _ => hbranch b) rfl⟩
  | ite cond onTrue onFalse =>
    exact ⟨_, rfl, by decide, h.required rfl (hexpr cond) <| h.required rfl (hexpr onTrue) <|
      h.required rfl (hexpr onFalse) rfl⟩
  | list items =>
    exact ⟨_, rfl, by decide,
      h.required rfl (.list (Expr.toJsonList_eq items) fun e _ => hexpr e) rfl⟩
  | record fields =>
    exact ⟨_, rfl, by decide,
      h.required rfl (.list (Field.toJsonList_eq fields) fun f _ => hfield f) rfl⟩
  | access record field =>
    exact ⟨_, rfl, by decide, h.required rfl (hexpr record) <| h.string rfl rfl⟩
  | update record fields =>
    exact ⟨_, rfl, by decide, h.required rfl (hexpr record) <|
      h.required rfl (.list (Field.toJsonList_eq fields) fun f _ => hfield f) rfl⟩

theorem Expr.decodes_part (e : Expr) (hroom : room ≤ nesting) (hfuel : 2 * room ≤ fuel) :
    Decodes room (Expr.ofPart fuel) e.toJson e := by
  induction room using Nat.strong_induction_on generalizing fuel e with
  | _ room ih =>
    obtain ⟨id, span, form⟩ := e
    refine .object (nodup_keys id span form) ?_
    rintro r ms rfl hms
    obtain ⟨fuel, rfl⟩ : ∃ f, fuel = f + 2 := ⟨fuel - 2, by omega⟩
    have ih (e : Expr) : Decodes r (Expr.ofPart fuel) e.toJson e :=
      ih r (Nat.lt_succ_self r) e (Nat.le_of_succ_le hroom) (by omega)
    obtain ⟨kind, hget, hkind, hform⟩ := formOfPart_eq (Nat.le_of_succ_le hroom) hms ih
    refine hms.kindMembers hget hkind <| hms.required rfl (asUInt32_decodes id) <|
      hms.span rfl (span.decodes (.inr le_rfl)) ?_
    rw [hform]
    rfl

/-- What fits as a whole fits as an outermost value. -/
theorem Json.Decodes.outside {α : Type} {x : α} {item : Json → Option α} {direct : List String}
    (span : Span) (hkeys : (Assoc.keys ms).Nodup)
    (hspan : ∀ j, ("span", j) ∈ ms → j = span.toJson) (h : Decodes room item (.object ms) x) :
    Decodes room (fun j => if fitsOutside direct room j then item j else none) (.object ms) x := by
  have hout : Decodes room (fun j => some (fitsOutside direct room j)) (.object ms) true := by
    refine .object hkeys ?_
    rintro r ms rfl hms
    rw [fitsOutside, Option.some.injEq, List.all_eq_true]
    rintro ⟨name, j⟩ hmem
    have hfits := hms.fits _ hmem
    by_cases hname : name = "span"
    · subst hname
      obtain ⟨j', hmem', hj⟩ := hms.thinned.exists_mem hmem
      obtain rfl := hspan j' hmem'
      simp [span.decodes (.inl le_rfl) j hj hfits]
    · simp [hname, hfits]
  intro j hj hfits
  exact (if_pos (Option.some.inj (hout j hj hfits))).trans (h j hj hfits)

theorem Pattern.decodes (p : Pattern) (hroom : room ≤ nesting) :
    Decodes room (Pattern.ofJson room) p.toJson p := by
  have hpart := p.decodes_part hroom
  obtain ⟨span, form⟩ := p
  refine .outside span (nodup_keys span form) (fun j hj => ?_) hpart
  cases form <;> simpa [PatternForm.members] using hj

theorem Expr.decodes (e : Expr) (hroom : room ≤ nesting) :
    Decodes room (Expr.ofJson room) e.toJson e := by
  have hpart := e.decodes_part hroom (Nat.mul_le_mul_left 2 hroom)
  obtain ⟨id, span, form⟩ := e
  refine .outside span (nodup_keys id span form) (fun j hj => ?_) hpart
  cases form <;> simpa [ExprForm.members] using hj

theorem Def.decodes (d : Def) (hroom : room ≤ nesting) :
    Decodes room (Def.ofJson room) d.toJson d := by
  obtain ⟨name, params, body, span⟩ := d
  refine .of_pos ?_
  rintro r rfl
  have hr := Nat.le_of_succ_le hroom
  exact Def.decodes_members ⟨name, params, body, span⟩ (.listWithin (Pattern.toJsonList_eq params) fun k hk p =>
    p.decodes (hk.trans hr)) (body.decodes hr) (span.decodes (.inl le_rfl))

theorem Branch.decodes (b : Branch) (hroom : room ≤ nesting) :
    Decodes room (Branch.ofJson room) b.toJson b := by
  obtain ⟨pattern, body, span⟩ := b
  refine .of_pos ?_
  rintro r rfl
  have hr := Nat.le_of_succ_le hroom
  exact Branch.decodes_members ⟨pattern, body, span⟩ (pattern.decodes hr) (body.decodes hr)
    (span.decodes (.inl le_rfl))

theorem Field.decodes (f : Field) (hroom : room ≤ nesting) :
    Decodes room (Field.ofJson room) f.toJson f := by
  obtain ⟨name, value⟩ := f
  refine .of_pos ?_
  rintro r rfl
  exact Field.decodes_members ⟨name, value⟩ (value.decodes (Nat.le_of_succ_le hroom))

theorem Group.decodes (g : Group) (hroom : room ≤ nesting) :
    Decodes room (Group.ofJson room) g.toJson g := by
  refine .object (by simp [Assoc.keys]) ?_
  rintro r ms rfl hms
  exact hms.asStruct <| hms.required rfl (.listWithin (Def.toJsonList_eq g.defs) fun k hk d =>
    d.decodes (by omega)) rfl

theorem Program.decodes (p : Program) (hroom : room ≤ nesting) :
    Decodes room (Program.ofJson room) p.toJson p := by
  refine .object (by simp [Assoc.keys]) ?_
  rintro r ms rfl hms
  exact hms.asStruct <| hms.required rfl (.listWithin rfl fun k hk g => g.decodes (by omega)) rfl

theorem Assoc.ofList_of_sorted {α : Type} {m : List (String × α)} (h : Assoc.Sorted m) :
    Assoc.ofList m = m := by
  refine (Assoc.sorted_union Assoc.sorted_nil).ext h fun k => ?_
  rw [Assoc.get?_union h]
  simp [Assoc.get?]

theorem Json.Part.parts {α : Type} {held : Bool} {kind : String}
    {f : String × List (String × Json) → Option α} {b : Option α} (h : Part room ms ms')
    (hget : Assoc.get? ms "kind" = some (.string kind)) (hkind : kind ∈ Signature.kinds)
    (hf : f (kind, ms') = b) : Signature.parts held (.object ms') >>= f = b := by
  have hparts : Signature.parts held (.object ms') = some (kind, ms') := by
    rw [Signature.parts, if_pos (h.areSingle _)]
    exact h.kind hget hkind (h.asStruct rfl)
  rw [hparts]
  exact hf

namespace Signature

theorem toJsonList_eq (ts : List Signature) : toJsonList ts = ts.map toJson :=
  map_of_cons rfl (fun _ _ => rfl) ts

theorem toJsonFields_eq (fs : List (String × Signature)) :
    toJsonFields fs = fs.map fun f => (f.1, f.2.toJson) :=
  map_of_cons rfl (fun _ _ => rfl) fs

theorem toJson_not_mem_defaults (t : Signature) (kind : Option String) (name : String) :
    (name, t.toJson) ∉ defaults kind := by
  intro h
  replace h := defaults_subset kind h
  cases t <;> simp [toJson, Span.toJson] at h

theorem decodes_fields {item : Json → Option Signature} {fields : List (String × Signature)}
    (hsorted : Assoc.Sorted fields) (hitem : ∀ f ∈ fields, Decodes room item f.2.toJson f.2) :
    Decodes room (asMap item) (.object (toJsonFields fields)) fields := by
  rw [toJsonFields_eq]
  have hkeys : (Assoc.keys (fields.map fun f => (f.1, f.2.toJson))).Nodup := by
    rw [Assoc.keys, List.map_map]
    exact hsorted.imp String.ne_of_lt
  refine .object hkeys ?_
  rintro r ms rfl hms
  have hall := hms.thinned.forall₂ fun m hm => by
    obtain ⟨f, _, rfl⟩ := List.mem_map.mp hm
    exact f.2.toJson_not_mem_defaults _ _
  rw [List.forall₂_map_left_iff] at hall
  have hmap : (ms.mapM fun m => (item m.2).map fun a => (m.1, a)) = some fields := by
    have hfits := hms.fits
    clear hms hkeys hsorted
    induction hall with
    | nil => rfl
    | @cons f m fields ms hm _ ih =>
      rw [List.forall_mem_cons] at hitem hfits
      rw [List.mapM_cons, hitem.1.succ m.2 hm.2 hfits.1, ih hitem.2 hfits.2, hm.1]
      rfl
  rw [asMap, hmap, Option.map_some, Assoc.ofList_of_sorted hsorted]

theorem decodes_part {t : Signature} (held : Bool) (hord : t.Ordered) (hle : room ≤ fuel) :
    Decodes room (ofPart fuel held) t.toJson t := by
  induction room using Nat.strong_induction_on generalizing fuel held t with
  | _ room ih =>
    have hpart {r : Nat} (hr : room = r + 1) : ∃ f, fuel = f + 1 ∧
        ∀ {t : Signature}, t.Ordered → Decodes r (ofPart f true) t.toJson t :=
      ⟨fuel - 1, by omega, fun ht => ih r (by omega) true ht (by omega)⟩
    cases hord with
    | var =>
      refine .object (by simp [Assoc.keys]) fun r ms hr hms => ?_
      obtain ⟨f, rfl, -⟩ := hpart hr
      exact hms.parts rfl (by decide) <| hms.string rfl rfl
    | @con name args hargs =>
      refine .object (by simp [Assoc.keys]) fun r ms hr hms => ?_
      obtain ⟨f, rfl, hsub⟩ := hpart hr
      refine hms.parts rfl (by decide) <| hms.string rfl <| hms.optional rfl (fun hmem => ?_)
        (.list (toJsonList_eq args) fun a ha => hsub (hargs a ha)) rfl
      simpa [toJsonList_eq] using defaults_subset _ hmem
    | func harg hret =>
      refine .object (by simp [Assoc.keys]) fun r ms hr hms => ?_
      obtain ⟨f, rfl, hsub⟩ := hpart hr
      exact hms.parts rfl (by decide) <| hms.required rfl (hsub harg) <|
        hms.required rfl (hsub hret) rfl
    | @record fields ext hsorted hfields =>
      refine .object (by simp [Assoc.keys]) fun r ms hr hms => ?_
      obtain ⟨f, rfl, hsub⟩ := hpart hr
      refine hms.parts rfl (by decide) <| hms.required rfl
        (decodes_fields hsorted fun f hf => hsub (hfields f hf)) <|
        hms.optional rfl (fun hmem => ?_) ?_ rfl
      · replace hmem := defaults_subset _ hmem
        cases ext <;> simp at hmem ⊢
      · cases ext <;> rintro _ ⟨⟩ _ <;> rfl

theorem decodes {t : Signature} (hord : t.Ordered) (hroom : room ≤ nesting) :
    Decodes room (ofJson room) t.toJson t := fun j hj hfits =>
  (if_pos hfits).trans (decodes_part false hord hroom j hj hfits)

end Signature

theorem Alias.decodes {a : Alias} (hord : a.body.Ordered) (hroom : room ≤ nesting) :
    Decodes room (Alias.ofJson room) a.toJson a := by
  refine .object (by simp [Assoc.keys]) ?_
  rintro r ms rfl hms
  refine hms.asStruct <| hms.optional rfl (fun hmem => ?_) (.listWithin rfl fun _ _ => .string) <|
    hms.required rfl (Signature.decodes hord (Nat.le_of_succ_le hroom)) rfl
  simpa using defaults_subset _ hmem

end TypeSolver
