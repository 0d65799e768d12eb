import Mathlib
import TypeSolver.Proofs.Compression
import TypeSolver.Proofs.Finished
import TypeSolver.Proofs.Tails

/-!
# TypeSolver.Proofs.Polytypes

The types of bindings as they are shown. Letters do not repeat and one of them is always free, so
quantified variables get different names (`Naming.Proper`); reading a type shows its meaning under
these names (`Reading.readType_shown`). As the groups of a program are finished when it ends, all
names in the type of a binding are those of quantified variables (`bindings_closed`).
-/

namespace TypeSolver

open Store

namespace Naming

variable {n n' : Naming} {v : Var} {hint : Option String}

theorem letter_toList (i : Nat) : (letter i).toList =
    Char.ofNat (97 + i % 26) :: if i / 26 = 0 then [] else Nat.toDigits 10 (i / 26) := by
  rw [letter]
  split <;> simp [String.toList_append, String.toList_singleton, Nat.toString_eq_repr, Nat.repr]

theorem letter_injective : Function.Injective letter := by
  intro i j h
  have hlist := congrArg String.toList h
  rw [letter_toList, letter_toList, List.cons.injEq] at hlist
  obtain ⟨hchar, hdigits⟩ := hlist
  have hmod : i % 26 = j % 26 := by
    have hvalid : ∀ k, (97 + k % 26).isValidChar := fun k => by unfold Nat.isValidChar; omega
    have hval := congrArg Char.toNat hchar
    rw [Char.toNat_ofNat, Char.toNat_ofNat, if_pos (hvalid i), if_pos (hvalid j)] at hval
    omega
  have hdiv : i / 26 = j / 26 := by
    have hzero : ∀ k, Nat.ofDigitChars 10 (if k = 0 then [] else Nat.toDigits 10 k) 0 = k := by
      intro k
      split
      · rename_i hk; rw [hk]; rfl
      · exact Nat.ofDigitChars_ten_toDigits
    rw [← hzero (i / 26), hdigits, hzero]
  omega

variable {x name : String} {r : Var}

theorem isTaken_iff : n.isTaken name = true ↔ name ∈ n.names.map Prod.snd := by
  simp [isTaken]

theorem taken_of_freeLetter {fuel i : Nat}
    (h : n.isTaken (letter (n.freeLetter fuel i)) = true) :
    ∀ j, j < fuel → n.isTaken (letter (i + j)) = true := by
  induction fuel generalizing i with
  | zero => exact fun j hj => absurd hj (Nat.not_lt_zero j)
  | succ fuel ih =>
    rw [freeLetter] at h
    split at h
    · rename_i htaken
      intro j hj
      cases j with
      | zero => exact htaken
      | succ j =>
        rw [Nat.add_succ, ← Nat.succ_add]
        exact ih h j (Nat.lt_of_succ_lt_succ hj)
    · rename_i htaken
      exact absurd h htaken

theorem freeLetter_free (n : Naming) (i : Nat) :
    ¬ n.isTaken (letter (n.freeLetter (n.names.length + 1) i)) = true := by
  intro h
  have htaken := taken_of_freeLetter h
  have hsub : (List.range (n.names.length + 1)).map (fun j => letter (i + j)) ⊆
      n.names.map Prod.snd := by
    intro name hname
    obtain ⟨j, hj, rfl⟩ := List.mem_map.mp hname
    exact isTaken_iff.mp (htaken j (List.mem_range.mp hj))
  have hnodup : ((List.range (n.names.length + 1)).map fun j => letter (i + j)).Nodup :=
    List.nodup_range.map fun a b hab => Nat.add_left_cancel (letter_injective hab)
  have hle := (hnodup.subperm hsub).length_le
  simp at hle

/-- Names of quantified variables are listed in `order`, and none of them was given twice. -/
structure Proper (n : Naming) : Prop where
  keys : (Assoc.keys n.names).Nodup
  order : n.order = (n.names.filter (·.1 ∈ n.quantified)).map Prod.snd
  nodup : n.order.Nodup

theorem Proper.mem_order (h : n.Proper) (hx : (r, x) ∈ n.names) (hr : r ∈ n.quantified) :
    x ∈ n.order := by
  rw [h.order]
  exact List.mem_map.mpr ⟨(r, x), List.mem_filter.mpr ⟨hx, by simpa using hr⟩, rfl⟩

theorem Proper.name_eq (h : n.Proper) {y : String} (hx : (r, x) ∈ n.names) (hy : (r, y) ∈ n.names) :
    x = y :=
  congrArg Prod.snd (List.inj_on_of_nodup_map h.keys hx hy rfl)

theorem Proper.var_eq (h : n.Proper) {r' : Var} (hx : (r, x) ∈ n.names) (hx' : (r', x) ∈ n.names)
    (hr : r ∈ n.quantified) (hr' : r' ∈ n.quantified) : r = r' := by
  have hnodup := h.nodup
  rw [h.order] at hnodup
  exact congrArg Prod.fst (List.inj_on_of_nodup_map hnodup
    (List.mem_filter.mpr ⟨hx, by simpa using hr⟩) (List.mem_filter.mpr ⟨hx', by simpa using hr'⟩)
    rfl)

theorem Proper.addQuantified (h : n.Proper) (hv : Assoc.get? n.names v = none)
    (hq : v ∈ n.quantified) (hname : ¬ n.isTaken name = true) :
    (n.addQuantified v name).Proper where
  keys := by
    rw [Assoc.get?_eq_none_iff] at hv
    simp only [Naming.addQuantified, Assoc.keys, List.map_append]
    exact h.keys.append (List.nodup_singleton v) (by simpa using hv)
  order := by simp [Naming.addQuantified, List.filter_append, hq, h.order]
  nodup := by
    refine h.nodup.append (List.nodup_singleton name) ?_
    rw [List.disjoint_singleton, h.order]
    intro hmem
    obtain ⟨e, he, rfl⟩ := List.mem_map.mp hmem
    exact hname (isTaken_iff.mpr (List.mem_map.mpr ⟨e, (List.mem_filter.mp he).1, rfl⟩))

/-- What naming one more variable does. -/
structure Names (n n' : Naming) : Prop where
  names : n.names ⊆ n'.names
  quantified : n'.quantified = n.quantified
  proper : n.Proper → n'.Proper

theorem Names.refl : n.Names n := ⟨fun _ h => h, rfl, id⟩

theorem Names.trans {n'' : Naming} (h : n.Names n') (h' : n'.Names n'') : n.Names n'' :=
  ⟨fun _ he => h'.names (h.names he), h'.quantified.trans h.quantified,
    fun hn => h'.proper (h.proper hn)⟩

theorem nameOf_names (n : Naming) (v : Var) (hint : Option String) :
    n.Names (n.nameOf v hint).2 ∧ (v, (n.nameOf v hint).1) ∈ (n.nameOf v hint).2.names := by
  rw [nameOf]
  cases hv : Assoc.get? n.names v with
  | some name => exact ⟨.refl, Assoc.mem_of_get? hv⟩
  | none =>
    by_cases hq : v ∈ n.quantified
    · simp only [if_pos hq]
      split
      · rename_i name hname
        have hfree : ¬ n.isTaken name = true := by
          have := (Option.filter_eq_some_iff.mp hname).2
          simpa using this
        exact ⟨⟨List.subset_append_left _ _, rfl, fun hn => hn.addQuantified hv hq hfree⟩,
          by simp [Naming.addQuantified]⟩
      · have hfree := n.freeLetter_free n.nextLetter
        refine ⟨⟨List.subset_append_left _ _, rfl, fun hn => ?_⟩, by simp [Naming.addQuantified]⟩
        obtain ⟨hkeys, horder, hnodup⟩ := hn.addQuantified hv hq hfree
        exact ⟨hkeys, horder, hnodup⟩
    · simp only [if_neg hq]
      refine ⟨⟨List.subset_append_left _ _, rfl, fun hn => ⟨?_, ?_, hn.nodup⟩⟩, by simp⟩
      · rw [Assoc.get?_eq_none_iff] at hv
        simp only [Assoc.keys, List.map_append]
        exact hn.keys.append (List.nodup_singleton v) (by simpa using hv)
      · simp [List.filter_append, hq, hn.order]

end Naming

/-- The tree `n` is `m` with names in place of its variables. -/
inductive Meaning.Shown (N : Var → String → Prop) : Meaning → NamedType → Prop where
  | var {r : Var} {x : String} : N r x → Shown N (.var r) (.var x)
  | func {a b : Meaning} {x y : NamedType} : Shown N a x → Shown N b y →
      Shown N (.func a b) (.func x y)
  | app {name : String} {ms : List Meaning} {ns : List NamedType} : ms.length = ns.length →
      (∀ m n, (m, n) ∈ ms.zip ns → Shown N m n) → Shown N (.app name ms) (.app name ns)
  | record {fs : List (String × Meaning)} {gs : List (String × NamedType)} {ext : Option Var}
      {ext' : Option String} : Assoc.keys fs = Assoc.keys gs →
      (∀ k m n, ((k, m), (k, n)) ∈ fs.zip gs → Shown N m n) → Option.Rel N ext ext' →
      Shown N (.record fs ext) (.record gs ext')
  | error : Shown N .error .error

/-- A step from a type to a part of it. -/
inductive Turn where
  | arg
  | ret
  | item (i : Nat)
  | field (i : Nat)
  | ext

/-- The name at the end of a path, if a variable or the extension of a record stands there. -/
def NamedType.nameAt : List Turn → NamedType → Option String
  | [], .var name => some name
  | [.ext], .record _ ext => ext
  | .arg :: path, .func arg _ => arg.nameAt path
  | .ret :: path, .func _ ret => ret.nameAt path
  | .item i :: path, .app _ args => args[i]?.bind (·.nameAt path)
  | .field i :: path, .record fields _ => fields[i]?.bind (·.2.nameAt path)
  | _, _ => none

/-- The class at the end of a path, if a variable or the extension of a record stands there. -/
def Meaning.classAt : List Turn → Meaning → Option Var
  | [], .var r => some r
  | [.ext], .record _ ext => ext
  | .arg :: path, .func arg _ => arg.classAt path
  | .ret :: path, .func _ ret => ret.classAt path
  | .item i :: path, .app _ args => args[i]?.bind (·.classAt path)
  | .field i :: path, .record fields _ => fields[i]?.bind (·.2.classAt path)
  | _, _ => none

namespace Meaning

variable {N N' : Var → String → Prop} {m : Meaning} {n : NamedType}

theorem mentions_of_classAt {path : List Turn} {r : Var} (h : m.classAt path = some r) :
    m.Mentions r := by
  fun_induction classAt path m with
  | case1 r' => cases h; exact .var
  | case2 fields ext => subst h; exact .ext
  | case3 path arg ret ih => exact .arg (ih h)
  | case4 path arg ret ih => exact .ret (ih h)
  | case5 i path name args ih =>
    obtain ⟨a, ha, hr⟩ := Option.bind_eq_some_iff.mp h
    exact .app (List.mem_of_getElem? ha) (ih a hr)
  | case6 i path fields ext ih =>
    obtain ⟨f, hf, hr⟩ := Option.bind_eq_some_iff.mp h
    exact .field (List.mem_of_getElem? hf) (ih f hr)
  | case7 => cases h

namespace Shown

theorem mono (h : m.Shown N n) (hN : ∀ r x, N r x → N' r x) : m.Shown N' n := by
  induction h with
  | var h => exact .var (hN _ _ h)
  | func _ _ iha ihr => exact .func iha ihr
  | app hlen _ ih => exact .app hlen ih
  | record hk _ hext ih =>
    refine .record hk ih ?_
    cases hext with
    | some h => exact .some (hN _ _ h)
    | none => exact .none
  | error => exact .error

theorem args {name : String} {ms : List Meaning} {ns : List NamedType}
    (h : List.Forall₂ (Shown N) ms ns) : (Meaning.app name ms).Shown N (.app name ns) := by
  obtain ⟨hlen, h⟩ := List.forall₂_iff_zip.mp h
  exact .app hlen fun _ _ hp => h hp

variable {fs : List (String × Meaning)} {gs : List (String × NamedType)}

theorem fields {ext : Option Var} {ext' : Option String} (h : Assoc.Related (Shown N) fs gs)
    (hext : Option.Rel N ext ext') : (Meaning.record fs ext).Shown N (.record gs ext') :=
  .record h.keys_eq (fun _ _ _ hp => ((List.forall₂_iff_zip.mp h).2 hp).2) hext

theorem close (h : Assoc.Related (Shown N) fs gs) (hm : m.Shown N n) :
    (Meaning.close fs m).Shown N (closeRecord gs n) := by
  cases hm with
  | var hx => exact fields h (.some hx)
  | record hk hf hext => exact fields (h.union (Assoc.related_of_zip hk hf)) hext
  | _ => exact fields h .none

theorem rel_bind {α β : Type} {R : α → β → Prop} {xs : List α} {ys : List β}
    (h : List.Forall₂ R xs ys) {f : α → Option Var} {g : β → Option String}
    (hfg : ∀ x y, R x y → Option.Rel N (f x) (g y)) (i : Nat) :
    Option.Rel N (xs[i]?.bind f) (ys[i]?.bind g) := by
  induction h generalizing i with
  | nil => exact .none
  | cons hxy _ ih =>
    cases i with
    | zero => exact hfg _ _ hxy
    | succ i => exact ih i

theorem at_path (h : m.Shown N n) (path : List Turn) :
    Option.Rel N (m.classAt path) (n.nameAt path) := by
  induction path generalizing m n with
  | nil =>
    cases h with
    | var hx => exact .some hx
    | _ => exact .none
  | cons turn path ih =>
    cases h with
    | func ha hr =>
      cases turn with
      | arg => exact ih ha
      | ret => exact ih hr
      | _ => cases path <;> exact .none
    | app hlen hargs =>
      cases turn with
      | item i => exact rel_bind (forall₂_of_zip hlen hargs) (fun _ _ h => ih h) i
      | _ => cases path <;> exact .none
    | record hk hfields hext =>
      cases turn with
      | field i => exact rel_bind (Assoc.related_of_zip hk hfields) (fun _ _ h => ih h.2) i
      | ext =>
        cases path with
        | nil => exact hext
        | cons => exact .none
      | _ => exact .none
    | _ => cases turn <;> cases path <;> exact .none

end Shown
end Meaning

/-- The type of a binding shows the tree `m` without ambiguity: all its names are listed, none of
them twice, and two positions have one name just where the tree has one variable. -/
structure Polytype.Labels (p : Polytype) (m : Meaning) : Prop where
  listed : ∀ path x, p.ty.nameAt path = some x → x ∈ p.vars
  nodup : p.vars.Nodup
  alike : ∀ path, (p.ty.nameAt path).isSome = (m.classAt path).isSome
  same : ∀ path path' r r', m.classAt path = some r → m.classAt path' = some r' →
    (p.ty.nameAt path = p.ty.nameAt path' ↔ r = r')

theorem Threaded.forall₂_names {α β : Type} {M : α → Naming → β → Naming → Prop}
    {R : (Var → String → Prop) → α → β → Prop}
    (hR : ∀ N N' : Var → String → Prop, (∀ r x, N r x → N' r x) → ∀ x y, R N x y → R N' x y)
    {xs : List α} {ys : List β} {nm nm' : Naming} (h : Threaded M xs nm ys nm')
    (hM : ∀ x ∈ xs, ∀ nm y nm', M x nm y nm' →
      nm.Names nm' ∧ R (fun r x => (r, x) ∈ nm'.names) x y) :
    nm.Names nm' ∧ List.Forall₂ (R fun r x => (r, x) ∈ nm'.names) xs ys := by
  induction h with
  | nil => exact ⟨.refl, .nil⟩
  | cons hx _ ih =>
    obtain ⟨hnames, hy⟩ := hM _ List.mem_cons_self _ _ _ hx
    obtain ⟨hnames', hys⟩ := ih fun x hx => hM x (List.mem_cons_of_mem _ hx)
    exact ⟨hnames.trans hnames', .cons (hR _ _ (fun r x h => hnames'.names h) _ _ hy) hys⟩

namespace Store

variable {s : Store} {θ : Valuation}

theorem Reading.readType_shown (h0 : s.Reading θ) (h : s.Formed) (hu : s.aliases.Usable)
    {k : Nat} {t : Ty} {nm nm' : Naming} {n : NamedType}
    (hrun : (s.readType k t).run nm = some (n, nm')) (ht : t.Fits s.size) : nm.Names nm' ∧
      ∀ m, Denotes s.aliases θ t m → m.Shown (fun r x => (r, x) ∈ nm'.names) n := by
  refine readType_induction (motive := fun _ t nm n nm' => t.Fits s.size → nm.Names nm' ∧
    ∀ m, Denotes s.aliases θ t m → m.Shown (fun r x => (r, x) ∈ nm'.names) n)
    ?bound ?poisoned ?unbound ?func ?expanded ?app ?record hrun ht
  case bound =>
    intro _ v t nm n nm' hc ih _
    have hk : s.kind v = .bound t := kind_eq_bound.mpr hc
    obtain ⟨hnames, hshown⟩ := ih (h.fits v t hk)
    refine ⟨hnames, fun m hm => hshown m ?_⟩
    rw [Denotes.var_iff.mp hm]
    exact h0.bound v t hk
  case poisoned =>
    intro _ v nm hc ht
    refine ⟨.refl, fun m hm => ?_⟩
    rw [Denotes.var_iff.mp hm, h0.poisoned v (ht.lt (by simp)) (kind_eq_poisoned.mpr hc)]
    exact .error
  case unbound =>
    intro _ v rank hint nm hc _
    obtain ⟨hnames, hmem⟩ := nm.nameOf_names (s.root v) hint
    refine ⟨hnames, fun m hm => ?_⟩
    rw [Denotes.var_iff.mp hm, h0.free v (kind_eq_free.mpr ⟨rank, hint, hc⟩)]
    exact .var hmem
  case func =>
    intro _ arg ret nm a nm1 r nm' iha ihr ht
    obtain ⟨hnames, hsa⟩ := iha (Ty.over_func.mp ht).1
    obtain ⟨hnames', hsr⟩ := ihr (Ty.over_func.mp ht).2
    refine ⟨hnames.trans hnames', fun m hm => ?_⟩
    obtain ⟨ma, mr, rfl, hma, hmr⟩ := Denotes.func_iff.mp hm
    exact .func ((hsa ma hma).mono fun _ _ h => hnames'.names h) (hsr mr hmr)
  case expanded =>
    intro _ name args t nm n nm' hex ih ht
    obtain ⟨hnames, hshown⟩ := ih (hu.expand_over hex (Ty.over_app.mp ht))
    exact ⟨hnames, fun m hm => hshown m ((Denotes.expanded_iff hex).mp hm)⟩
  case app =>
    intro _ name args nm ts nm' hne hts ht
    obtain ⟨hnames, hall⟩ := hts.forall₂_names
      (R := fun N a n => ∀ m, Denotes s.aliases θ a m → m.Shown N n)
      (fun _ _ hN _ _ hs m hm => (hs m hm).mono hN)
      fun a ha _ _ _ h => h (Ty.over_app.mp ht a ha)
    refine ⟨hnames, fun m hm => ?_⟩
    obtain ⟨ms, rfl, hms⟩ := (Denotes.app_iff hne).mp hm
    exact .args (forall₂_of_forall₂ hms hall fun _ _ m n hm hs => hs m hm)
  case record =>
    intro _ fields ext nm fs nm1 n nm' hfs hend ht
    obtain ⟨_, hf, hext⟩ := Ty.over_record.mp ht
    obtain ⟨hnames, hall⟩ := hfs.forall₂_names
      (R := fun N (f : String × Ty) (g : String × NamedType) =>
        f.1 = g.1 ∧ ∀ m, Denotes s.aliases θ f.2 m → m.Shown N g.2)
      (fun _ _ hN _ _ hs => ⟨hs.1, fun m hm => (hs.2 m hm).mono hN⟩)
      (fun f hmem _ _ _ h => (h.2 (hf f hmem)).imp_right fun hs => ⟨h.1, hs⟩)
    have hfields : ∀ ms, Assoc.Related (Denotes s.aliases θ) fields ms →
        Assoc.Related (Meaning.Shown fun r x => (r, x) ∈ nm1.names) ms fs := fun ms hms =>
      forall₂_of_forall₂ hms hall fun _ _ _ _ hm hs => ⟨hm.1.symm.trans hs.1, hs.2 _ hm.2⟩
    cases ext with
    | none =>
      obtain ⟨rfl, rfl⟩ := hend
      refine ⟨hnames, fun m hm => ?_⟩
      obtain ⟨ms, rfl, hms⟩ := Denotes.record_iff.mp hm
      exact .fields (hfields ms hms) .none
    | some v =>
      obtain ⟨rest, ih, rfl⟩ := hend
      obtain ⟨hnames', hs⟩ := ih (Ty.over_var.mpr (hext v rfl))
      refine ⟨hnames.trans hnames', fun m hm => ?_⟩
      obtain ⟨ms, rfl, hms⟩ := Denotes.record_iff.mp hm
      exact .close ((hfields ms hms).mono fun _ _ h => h.mono fun _ _ h => hnames'.names h)
        (hs _ (.var v))

theorem Reading.polytype_labels (h0 : s.Reading θ) (hs : s.Intact) {k : Nat} {qs : List Var} {t : Ty}
    {p : Polytype} (hp : s.polytype k qs t = some p) (ht : t.Fits s.size) {m : Meaning}
    (hm : Denotes s.aliases θ t m) (hq : ∀ r, m.Mentions r → r ∈ qs) : p.Labels m := by
  obtain ⟨⟨n, nm⟩, hn, rfl⟩ := Option.map_eq_some_iff.mp hp
  obtain ⟨hnames, hshown⟩ := h0.readType_shown hs.toFormed hs.usable hn ht
  have hproper : nm.Proper := hnames.proper ⟨.nil, rfl, .nil⟩
  have hquant : ∀ path r, m.classAt path = some r → r ∈ nm.quantified := by
    intro path r hr
    have hmen := Meaning.mentions_of_classAt hr
    rw [hnames.quantified]
    exact List.mem_map.mpr ⟨r, hq r hmen, (h0.exists_of_mentions hs ht hm hmen).2.1⟩
  have hat := (hshown m hm).at_path
  have hname : ∀ path r, m.classAt path = some r →
      ∃ x, n.nameAt path = some x ∧ (r, x) ∈ nm.names := by
    intro path r hr
    have hrel := hat path
    rw [hr] at hrel
    generalize n.nameAt path = name at hrel
    cases hrel with
    | some hx => exact ⟨_, rfl, hx⟩
  refine ⟨fun path x hx => ?_, hproper.nodup, fun path => ?_, fun path path' r r' hr hr' => ?_⟩
  · have hrel := hat path
    rw [hx] at hrel
    generalize hc : m.classAt path = c at hrel
    cases hrel with
    | some hx => exact hproper.mem_order hx (hquant path _ hc)
  · have hrel := hat path
    generalize n.nameAt path = name at hrel
    generalize m.classAt path = c at hrel
    cases hrel <;> rfl
  · obtain ⟨x, hx, hmem⟩ := hname path r hr
    obtain ⟨x', hx', hmem'⟩ := hname path' r' hr'
    rw [hx, hx', Option.some_inj]
    constructor
    · rintro rfl
      exact hproper.var_eq hmem hmem' (hquant path r hr) (hquant path' r' hr')
    · rintro rfl
      exact hproper.name_eq hmem hmem'

end Store

/-- Without aliases, where the comparisons of the run keep the strict guard, the types of bindings
are closed, and their names tell apart the classes of the final store. -/
theorem bindings_closed {fuel : Nat} {program : Program} {env : Environment} {config : Config}
    {typed : TypedProgram} (hnil : env.aliases = []) (hsorted : env.Sorted)
    (h : inferProgram fuel program env config = some (.ok typed))
    (hstrict : ∀ p, Prepared.ofProgram program env = .ok p → (p.start config).Strictly fuel) :
    ∃ p st θ, Prepared.ofProgram program env = .ok p ∧ p.solve fuel config = .done () st ∧
      st.store.Reading θ ∧ ∀ b ∈ typed.bindings, ∃ scheme t m, (b.1, scheme) ∈ st.topLevel ∧
        scheme.typeOf? b.1 = some t ∧ Denotes st.store.aliases θ t m ∧ b.2.Labels m := by
  obtain ⟨p, st, hp, hsolve, herr, hbindings, _⟩ := inferProgram_eq_ok h
  obtain ⟨hs, _, hfinished⟩ := Prepared.finished_of_solve hnil hsorted hp (hstrict p hp) hsolve herr
  obtain ⟨θ, hθ⟩ := hs.grounded.exists_reading hs.toFormed hs.usable
  refine ⟨p, st, θ, hp, hsolve, hθ, fun b hb => ?_⟩
  obtain ⟨scheme, t, hscheme, ht, hpoly⟩ := exists_scheme_of_mem hbindings hb
  obtain ⟨hover, hav⟩ := hfinished _ hscheme _ (Assoc.mem_of_get? ht)
  have hfits : t.Fits st.store.size := hover.mono fun _ hv => hv.1
  obtain ⟨m, hm⟩ := hs.usable.exists_denotes θ t
  exact ⟨scheme, t, m, hscheme, ht, hm, hθ.polytype_labels hs hpoly hfits hm fun r hr =>
    not_not.mp (hav θ m hθ hm r hr)⟩

namespace Moment

/-- Two variables, one of them in two places and one behind the fields of a record. -/
theorem bindings_closed_twoFields : ∃ typed st θ,
    inferProgram 20 twoFields {} {} = some (.ok typed) ∧
    typed.bindings.map (fun b => (b.1, b.2.vars, b.2.ty.text)) =
      [("get", ["a", "b"], "\x7b b | x : a, y : a \x7d -> List a")] ∧
    (twoFieldsPrepared.start {}).Strictly 20 ∧ twoFieldsPrepared.solve 20 {} = .done () st ∧
    st.store.Reading θ ∧ ∀ b ∈ typed.bindings, ∃ scheme t m, (b.1, scheme) ∈ st.topLevel ∧
      scheme.typeOf? b.1 = some t ∧ Denotes st.store.aliases θ t m ∧ b.2.Labels m := by
  have hsorted : ({} : Environment).Sorted := by
    rintro sig (⟨_, _, hmem, _⟩ | ⟨_, hmem⟩) <;> cases hmem
  have hrun : ∃ typed, inferProgram 20 twoFields {} {} = some (.ok typed) ∧
      typed.bindings.map (fun b => (b.1, b.2.vars, b.2.ty.text)) =
        [("get", ["a", "b"], "\x7b b | x : a, y : a \x7d -> List a")] := by
    generalize hrun : inferProgram 20 twoFields {} {} = result
    cbv at hrun
    exact ⟨_, hrun.symm, by decide +kernel⟩
  obtain ⟨typed, htyped, htext⟩ := hrun
  obtain ⟨p, st, θ, hp, h⟩ := bindings_closed rfl hsorted htyped fun p hp => by
    cases hp.symm.trans twoFields_prepared
    exact twoFields_guarded .strict
  cases hp.symm.trans twoFields_prepared
  exact ⟨typed, st, θ, htyped, htext, twoFields_guarded .strict, h⟩

/-- The record behind which an integer stands is put into a list with an open record. -/
def spilledTail : Program where
  groups := [
    ⟨[{ name := "r", params := [], span := {},
        body := ⟨0, {}, .apply ⟨1, {}, .var "f"⟩ [⟨2, {}, .literal (.int 3)⟩]⟩ }]⟩,
    ⟨[{ name := "g", params := [⟨{}, .var "p"⟩], span := {},
        body := ⟨3, {}, .case ⟨4, {}, .var "p"⟩ [⟨⟨{}, .record ["y"]⟩,
          ⟨5, {}, .list [⟨6, {}, .var "r"⟩, ⟨7, {}, .var "p"⟩]⟩, {}⟩]⟩ }]⟩]

/-- The variables of the open record come into the type of the other, which was finished before and
is not quantified over them. -/
theorem open_binding : fieldBefore.aliases = [] ∧ fieldBefore.Sorted ∧ ∃ typed p x,
    inferProgram 20 spilledTail fieldBefore {} = some (.ok typed) ∧ ("r", p) ∈ typed.bindings ∧
    p.ty.nameAt [.ext] = some x ∧ x ∉ p.vars := by
  refine ⟨rfl, ?_, ?_⟩
  · rintro sig (⟨_, _, hmem, _⟩ | ⟨_, hmem⟩)
    · cases hmem
    · cases List.mem_singleton.mp hmem
      refine .func .var (.record (by simp [Assoc.Sorted, Assoc.keys]) fun f hf => ?_)
      cases List.mem_singleton.mp hf
      exact .con fun _ h => absurd h List.not_mem_nil
  · generalize hrun : inferProgram 20 spilledTail fieldBefore {} = result
    cbv at hrun
    exact ⟨_, ⟨[], .record [("y", .var "t9")] (some "t8")⟩, "t8", hrun.symm, .tail _ (.head _), rfl,
      List.not_mem_nil⟩

end Moment
end TypeSolver
