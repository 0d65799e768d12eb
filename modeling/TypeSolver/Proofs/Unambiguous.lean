import TypeSolver.Assoc
import TypeSolver.NamedType

/-!
# TypeSolver.Proofs.Unambiguous

The text of a type says which type it is. Every text is compared together with what follows it, so
that the parts of a type can be taken from its text one by one. What may follow depends on the place:
an argument ends at the next mark, an operand of an arrow at the arrow too (`Stops`), and a type that
stands alone at a bracket or a comma only (`Closes`).
-/

namespace TypeSolver

/-- The characters of the text of a type that belong to no name. -/
def marks : List Char := [' ', '(', ')', '-', '>', '\x7b', '\x7d', ':', '|', ',', '?']

/-- What counts as a letter or digit in names. No letter is both small and capital, and no mark is a
letter or digit. -/
structure Alphabet where
  isSmall : Char → Bool
  isCapital : Char → Bool
  isAlphanumeric : Char → Bool
  not_capital : ∀ c, isSmall c → ¬isCapital c
  not_mark : ∀ c, isAlphanumeric c → c ∉ marks

namespace Alphabet

def ascii : Alphabet where
  isSmall := Char.isLower
  isCapital := Char.isUpper
  isAlphanumeric := Char.isAlphanum
  not_capital c hsmall hcapital := by
    have hlow := of_decide_eq_true (Bool.and_eq_true_iff.mp hsmall).1
    have hhigh : c.val ≤ 'Z'.val := (of_decide_eq_true hcapital).2
    exact absurd (Nat.le_trans hlow hhigh) (by decide)
  not_mark c halnum hmark := by
    have hnone : marks.all (!·.isAlphanum) := by decide
    have hc := List.all_eq_true.mp hnone c hmark
    rw [halnum] at hc
    cases hc

variable (A : Alphabet)

def IsWord (name : String) : Prop := name.toList ≠ [] ∧ ∀ c ∈ name.toList, A.isAlphanumeric c

def IsSmallWord (name : String) : Prop := A.IsWord name ∧ ∀ c ∈ name.toList.head?, A.isSmall c

def IsCapitalWord (name : String) : Prop :=
  A.IsWord name ∧ ∀ c ∈ name.toList.head?, A.isCapital c

-- Named, as an instance that asks every character fits too.
instance (name : String) : Decidable (A.IsWord name) :=
  @instDecidableAnd _ _ _ (List.decidableBAll _ _)

instance (name : String) : Decidable (A.IsSmallWord name) :=
  @instDecidableAnd _ _ _ (Option.decidableForallMem _)

instance (name : String) : Decidable (A.IsCapitalWord name) :=
  @instDecidableAnd _ _ _ (Option.decidableForallMem _)

end Alphabet

namespace NamedType

/-- All names of a type are words. Those of variables and extensions begin with a small letter, and
those of constructors with a capital. -/
inductive WellNamed (A : Alphabet) : NamedType → Prop where
  | var {name : String} : A.IsSmallWord name → WellNamed A (.var name)
  | func {arg ret : NamedType} : WellNamed A arg → WellNamed A ret → WellNamed A (.func arg ret)
  | app {name : String} {args : List NamedType} : A.IsCapitalWord name →
      (∀ t ∈ args, WellNamed A t) → WellNamed A (.app name args)
  | record {fields : List (String × NamedType)} {ext : Option String} :
      (∀ f ∈ fields, A.IsWord f.1) → (∀ f ∈ fields, WellNamed A f.2) →
      (∀ name ∈ ext, A.IsSmallWord name) → WellNamed A (.record fields ext)
  | error : WellNamed A .error

/-! ## What follows -/

/-- A name ends here. -/
def Breaks (r : List Char) : Prop := ∀ c ∈ r.head?, c ∈ marks

/-- A type that stands alone ends here. -/
inductive Closes : List Char → Prop where
  | nil : Closes []
  | paren {r : List Char} : Closes (')' :: r)
  | comma {r : List Char} : Closes (',' :: r)
  | brace {r : List Char} : Closes (' ' :: '\x7d' :: r)

/-- An operand of an arrow ends here. -/
inductive Stops : List Char → Prop where
  | closes {r : List Char} : Closes r → Stops r
  | arrow {r : List Char} : Stops (' ' :: '-' :: r)

variable {A : Alphabet} {t u : NamedType} {r r' : List Char}

variable {c : Char} {x y : String} {fs gs : List (String × NamedType)} {ext : Option String}

theorem breaks_cons (h : c ∈ marks) : Breaks (c :: r) := by
  rintro _ ⟨⟩
  exact h

theorem Stops.breaks (h : Stops r) : Breaks r := by
  cases h with
  | arrow => exact breaks_cons (by decide)
  | closes h =>
    cases h with
    | nil => simp [Breaks]
    | _ => exact breaks_cons (by decide)

theorem Closes.not_arrow (h : Closes r) : r ≠ ' ' :: '-' :: r' := by
  cases h <;> simp

theorem Breaks.not_alphanumeric (h : Breaks (c :: r)) : ¬A.isAlphanumeric c :=
  fun hc => A.not_mark c hc (h c rfl)

/-- A name takes all letters and digits there are. -/
theorem word_append_inj {x y : List Char} (hx : ∀ c ∈ x, A.isAlphanumeric c)
    (hy : ∀ c ∈ y, A.isAlphanumeric c) (hr : Breaks r) (hr' : Breaks r')
    (h : x ++ r = y ++ r') : x = y ∧ r = r' := by
  induction x generalizing y with
  | nil =>
    cases y with
    | nil => exact ⟨rfl, h⟩
    | cons d y =>
      obtain rfl : r = d :: (y ++ r') := h
      exact absurd (hy d (.head _)) hr.not_alphanumeric
  | cons c x ih =>
    cases y with
    | nil =>
      obtain rfl : c :: (x ++ r) = r' := h
      exact absurd (hx c (.head _)) hr'.not_alphanumeric
    | cons d y =>
      rw [List.cons_append, List.cons_append, List.cons.injEq] at h
      obtain ⟨rfl, hrest⟩ := ih (fun e he => hx e (.tail _ he)) (fun e he => hy e (.tail _ he)) h.2
      exact ⟨by rw [h.1], hrest⟩

theorem name_append_inj (hx : A.IsWord x) (hy : A.IsWord y) (hr : Breaks r) (hr' : Breaks r')
    (h : x.toList ++ r = y.toList ++ r') : x = y ∧ r = r' := by
  obtain ⟨hname, hrest⟩ := word_append_inj hx.2 hy.2 hr hr' h
  exact ⟨String.toList_inj.mp hname, hrest⟩

/-! ## Texts as lists of characters -/

/-- A type that stands alone. -/
def chars (t : NamedType) : List Char := t.text.toList

/-- A type as the argument of an arrow. -/
def operand (t : NamedType) : List Char := (parenthesize t.isFunc t.text).toList

/-- A type as the argument of a constructor. -/
def atom (t : NamedType) : List Char := (parenthesize t.isCompound t.text).toList

theorem operand_eq (t : NamedType) : t.operand =
    if t.isFunc then '(' :: (t.chars ++ [')']) else t.chars := by
  rw [operand, parenthesize]
  split <;> simp [chars]

theorem atom_eq (t : NamedType) : t.atom =
    if t.isCompound then '(' :: (t.chars ++ [')']) else t.chars := by
  rw [atom, parenthesize]
  split <;> simp [chars]

theorem chars_func (arg ret : NamedType) : (func arg ret).chars ++ r =
    arg.operand ++ ' ' :: '-' :: '>' :: ' ' :: (ret.chars ++ r) := by
  simp [chars, text, operand]

theorem toList_argsText (t : NamedType) (ts : List NamedType) :
    (argsText (t :: ts)).toList = ' ' :: (t.atom ++ (argsText ts).toList) := by
  simp [argsText, atom]

theorem toList_fieldsText (name : String) (t : NamedType) (fs : List (String × NamedType)) :
    (fieldsText ((name, t) :: fs)).toList = ',' :: ' ' :: (name.toList ++
      ' ' :: ':' :: ' ' :: (t.chars ++ (fieldsText fs).toList)) := by
  simp [chars, fieldsText]

/-! ## First characters -/

/-- The kinds of characters with which an operand can begin. -/
inductive Lead where
  | small
  | capital
  | mark (c : Char)

def Lead.Is (A : Alphabet) : Lead → Char → Prop
  | .small, c => A.isAlphanumeric c ∧ A.isSmall c
  | .capital, c => A.isAlphanumeric c ∧ A.isCapital c
  | .mark c', c => c = c' ∧ c ∈ marks

theorem Lead.Is.unique {k k' : Lead} (h : k.Is A c) (h' : k'.Is A c) : k = k' := by
  cases k with
  | small =>
    cases k' with
    | small => rfl
    | capital => exact absurd h'.2 (A.not_capital c h.2)
    | mark d => exact absurd h'.2 (A.not_mark c h.1)
  | capital =>
    cases k' with
    | small => exact absurd h.2 (A.not_capital c h'.2)
    | capital => rfl
    | mark d => exact absurd h'.2 (A.not_mark c h.1)
  | mark d =>
    cases k' with
    | mark d' => rw [← h.1, ← h'.1]
    | _ => exact absurd h.2 (A.not_mark c h'.1)

def lead : NamedType → Lead
  | .var _ => .small
  | .func _ _ => .mark '('
  | .app _ _ => .capital
  | .record _ _ => .mark '\x7b'
  | .error => .mark '?'

theorem exists_cons_of_word {name : String} {P : Char → Prop} (h : A.IsWord name)
    (hhead : ∀ c ∈ name.toList.head?, P c) :
    ∃ c cs, name.toList = c :: cs ∧ A.isAlphanumeric c ∧ P c := by
  cases hname : name.toList with
  | nil => exact absurd hname h.1
  | cons c cs => exact ⟨c, cs, rfl, h.2 c (by simp [hname]), hhead c (by simp [hname])⟩

theorem WellNamed.exists_lead (h : t.WellNamed A) :
    ∃ c cs, t.operand = c :: cs ∧ t.lead.Is A c := by
  rw [operand_eq]
  cases h with
  | var hname => exact exists_cons_of_word hname.1 hname.2
  | func => exact ⟨'(', _, rfl, rfl, by decide⟩
  | @app name args hname _ =>
    obtain ⟨c, cs, hcs, hc⟩ := exists_cons_of_word hname.1 hname.2
    exact ⟨c, cs ++ (argsText args).toList, by simp [isFunc, chars, text, hcs], hc⟩
  | @record fields ext =>
    obtain ⟨cs, hcs⟩ : ∃ cs, (NamedType.record fields ext).chars = '\x7b' :: cs := by
      cases fields <;> cases ext <;> simp [chars, text]
    exact ⟨'\x7b', cs, hcs, rfl, by decide⟩
  | error => exact ⟨'?', [], rfl, rfl, by decide⟩

/-- Operands that begin alike have the same form. -/
theorem lead_eq_of_append (ht : t.WellNamed A) (hu : u.WellNamed A)
    (h : t.operand ++ r = u.operand ++ r') : t.lead = u.lead := by
  obtain ⟨c, cs, hc, hlead⟩ := ht.exists_lead
  obtain ⟨d, ds, hd, hlead'⟩ := hu.exists_lead
  rw [hc, hd, List.cons_append, List.cons_append, List.cons.injEq] at h
  exact hlead.unique (h.1 ▸ hlead')

theorem isFunc_of_isCompound (h : t.isCompound = false) : t.isFunc = false := by
  cases t <;> first | rfl | cases h

theorem atom_eq_operand (h : t.isCompound = false) : t.atom = t.operand := by
  rw [atom_eq, operand_eq, h, isFunc_of_isCompound h]

theorem WellNamed.exists_atom_lead (h : t.WellNamed A) :
    ∃ c cs, t.atom = c :: cs ∧ ∃ k : Lead, k.Is A c ∧ k ≠ .mark '\x7d' ∧ k ≠ .mark '-' := by
  cases hcompound : t.isCompound with
  | true => exact ⟨'(', _, by rw [atom_eq, if_pos hcompound], .mark '(', ⟨rfl, by decide⟩, by simp⟩
  | false =>
    obtain ⟨c, cs, hcs, hlead⟩ := h.exists_lead
    exact ⟨c, cs, by rw [atom_eq_operand hcompound, hcs], t.lead, hlead, by cases t <;> simp [lead]⟩

theorem WellNamed.not_stops (h : t.WellNamed A) : ¬Stops (' ' :: (t.atom ++ r)) := by
  obtain ⟨c, cs, hcs, k, hk, hbrace, harrow⟩ := h.exists_atom_lead
  rw [hcs, List.cons_append]
  rintro (⟨⟨⟩⟩ | _)
  · exact hbrace (hk.unique ⟨rfl, by decide⟩)
  · exact harrow (hk.unique ⟨rfl, by decide⟩)

/-! ## Lists -/

/-- The type is determined by the text that `f` gives it, up to where `E` says that it ends. -/
def Told (A : Alphabet) (f : NamedType → List Char) (E : List Char → Prop) (t : NamedType) : Prop :=
  ∀ (u : NamedType) (r r' : List Char), u.WellNamed A → E r → E r' → f t ++ r = f u ++ r' →
    t = u ∧ r = r'

theorem breaks_args (ts : List NamedType) (hr : Breaks r) : Breaks ((argsText ts).toList ++ r) := by
  cases ts with
  | nil => exact hr
  | cons t ts =>
    rw [toList_argsText]
    exact breaks_cons (by decide)

theorem args_append_inj {ts us : List NamedType} (hts : ∀ t ∈ ts, t.WellNamed A)
    (htold : ∀ t ∈ ts, Told A atom Breaks t) (hus : ∀ u ∈ us, u.WellNamed A) (hr : Stops r)
    (hr' : Stops r') (h : (argsText ts).toList ++ r = (argsText us).toList ++ r') :
    ts = us ∧ r = r' := by
  induction ts generalizing us with
  | nil =>
    cases us with
    | nil => exact ⟨rfl, h⟩
    | cons u us =>
      obtain rfl : r = _ := h
      rw [toList_argsText, List.cons_append, List.append_assoc] at hr
      exact absurd hr (hus u (.head _)).not_stops
  | cons t ts ih =>
    cases us with
    | nil =>
      obtain rfl : _ = r' := h
      rw [toList_argsText, List.cons_append, List.append_assoc] at hr'
      exact absurd hr' (hts t (.head _)).not_stops
    | cons u us =>
      rw [toList_argsText, toList_argsText, List.cons_append, List.cons_append, List.cons.injEq,
        List.append_assoc, List.append_assoc] at h
      obtain ⟨rfl, hrest⟩ := htold t (.head _) _ _ _ (hus u (.head _)) (breaks_args ts hr.breaks)
        (breaks_args us hr'.breaks) h.2
      obtain ⟨rfl, rfl⟩ := ih (fun t ht => hts t (.tail _ ht)) (fun t ht => htold t (.tail _ ht))
        (fun u hu => hus u (.tail _ hu)) hrest
      exact ⟨rfl, rfl⟩

theorem closes_fields (fs : List (String × NamedType)) :
    Closes ((fieldsText fs).toList ++ ' ' :: '\x7d' :: r) := by
  cases fs with
  | nil => exact .brace
  | cons f fs =>
    rw [toList_fieldsText]
    exact .comma

/-- Names before the same kind of mark. -/
theorem name_mark_inj {d : Char} (hx : A.IsWord x) (hy : A.IsWord y)
    (h : x.toList ++ ' ' :: c :: r = y.toList ++ ' ' :: d :: r') : x = y ∧ c = d ∧ r = r' := by
  obtain ⟨hname, hrest⟩ :=
    name_append_inj hx hy (breaks_cons (by decide)) (breaks_cons (by decide)) h
  simpa [hname] using hrest

theorem fields_append_inj (hfs : ∀ f ∈ fs, A.IsWord f.1) (htold : ∀ f ∈ fs, Told A chars Closes f.2)
    (hgs : ∀ g ∈ gs, A.IsWord g.1) (hgs' : ∀ g ∈ gs, g.2.WellNamed A)
    (h : (fieldsText fs).toList ++ ' ' :: '\x7d' :: r =
      (fieldsText gs).toList ++ ' ' :: '\x7d' :: r') : fs = gs ∧ r = r' := by
  induction fs generalizing gs with
  | nil =>
    cases gs with
    | nil => simpa [fieldsText] using h
    | cons g gs => simp [fieldsText] at h
  | cons f fs ih =>
    cases gs with
    | nil => simp [fieldsText] at h
    | cons g gs =>
      obtain ⟨x, t⟩ := f
      obtain ⟨y, u⟩ := g
      simp only [toList_fieldsText, List.cons_append, List.append_assoc, List.cons.injEq,
        true_and] at h
      obtain ⟨rfl, _, htexts⟩ := name_mark_inj (hfs _ (.head _)) (hgs _ (.head _)) h
      obtain ⟨rfl, hrest⟩ := htold _ (.head _) _ _ _ (hgs' _ (.head _)) (closes_fields fs)
        (closes_fields gs) (List.cons.inj htexts).2
      obtain ⟨rfl, rfl⟩ := ih (fun f hf => hfs f (.tail _ hf)) (fun f hf => htold f (.tail _ hf))
        (fun g hg => hgs g (.tail _ hg)) (fun g hg => hgs' g (.tail _ hg)) hrest
      exact ⟨rfl, rfl⟩

theorem chars_record (f : String × NamedType) (fs : List (String × NamedType)) :
    (record (f :: fs) none).chars ++ r =
      '\x7b' :: ((fieldsText (f :: fs)).toList.tail ++ ' ' :: '\x7d' :: r) := by
  obtain ⟨x, t⟩ := f
  simp [chars, text, toList_fieldsText]

theorem chars_record_ext (ext : String) (f : String × NamedType)
    (fs : List (String × NamedType)) : (record (f :: fs) (some ext)).chars ++ r =
      '\x7b' :: ' ' :: (ext.toList ++
        ' ' :: '|' :: ((fieldsText (f :: fs)).toList.tail ++ ' ' :: '\x7d' :: r)) := by
  obtain ⟨x, t⟩ := f
  simp [chars, text, toList_fieldsText]

theorem fieldsText_cons (f : String × NamedType) (fs : List (String × NamedType)) :
    (fieldsText (f :: fs)).toList = ',' :: (fieldsText (f :: fs)).toList.tail := by
  obtain ⟨x, t⟩ := f
  simp [toList_fieldsText]

/-- The mark behind the first name of a record, if it has a name. -/
def firstMark : List (String × NamedType) → Option String → Option Char
  | [], none => none
  | [], some _ => some '\x7d'
  | _ :: _, none => some ':'
  | _ :: _, some _ => some '|'

theorem record_cases (hfs : ∀ f ∈ fs, A.IsWord f.1) (hext : ∀ name ∈ ext, A.IsWord name) :
    (firstMark fs ext = none ∧ (record fs ext).chars ++ r = '\x7b' :: '\x7d' :: r) ∨
      ∃ x c rest, A.IsWord x ∧ firstMark fs ext = some c ∧
        (record fs ext).chars ++ r = '\x7b' :: ' ' :: (x.toList ++ ' ' :: c :: rest) := by
  rcases fs with _ | ⟨⟨x, t⟩, fs⟩ <;> rcases ext with _ | e
  · exact .inl ⟨rfl, rfl⟩
  · exact .inr ⟨e, _, r, hext e rfl, rfl, by simp [chars, text]⟩
  · refine .inr ⟨x, _, ' ' :: (t.chars ++ ((fieldsText fs).toList ++ ' ' :: '\x7d' :: r)),
      hfs _ (.head _), rfl, ?_⟩
    simp [chars, text]
  · exact .inr ⟨e, _, _, hext e rfl, rfl, chars_record_ext e (x, t) fs⟩

theorem record_append_inj {ext' : Option String} (hfs : ∀ f ∈ fs, A.IsWord f.1)
    (htold : ∀ f ∈ fs, Told A chars Closes f.2) (hext : ∀ name ∈ ext, A.IsWord name)
    (hgs : ∀ g ∈ gs, A.IsWord g.1) (hgs' : ∀ g ∈ gs, g.2.WellNamed A)
    (hext' : ∀ name ∈ ext', A.IsWord name)
    (h : (record fs ext).chars ++ r = (record gs ext').chars ++ r') :
    record fs ext = record gs ext' ∧ r = r' := by
  have hmark : firstMark fs ext = firstMark gs ext' := by
    rcases record_cases (r := r) hfs hext with ⟨hm, ht⟩ | ⟨x, c, rest, hx, hm, ht⟩ <;>
      rcases record_cases (r := r') hgs hext' with ⟨hm', hu⟩ | ⟨y, d, rest', hy, hm', hu⟩ <;>
      rw [ht, hu] at h
    · rw [hm, hm']
    · simp at h
    · simp at h
    · simp only [List.cons.injEq, true_and] at h
      rw [hm, hm', (name_mark_inj hx hy h).2.1]
  have hfields {f g fs' gs'} (hf : fs = f :: fs') (hg : gs = g :: gs')
      (htexts : (fieldsText (f :: fs')).toList.tail ++ ' ' :: '\x7d' :: r =
        (fieldsText (g :: gs')).toList.tail ++ ' ' :: '\x7d' :: r') : fs = gs ∧ r = r' := by
    refine fields_append_inj hfs htold hgs hgs' ?_
    rw [hf, hg]
    simpa only [← List.cons_append, ← fieldsText_cons] using congrArg (',' :: ·) htexts
  rcases fs with _ | ⟨f, fs⟩ <;> rcases ext with _ | e <;> rcases gs with _ | ⟨g, gs⟩ <;>
    rcases ext' with _ | e' <;> simp [firstMark] at hmark
  · exact ⟨rfl, by simpa [chars, text] using h⟩
  · have htexts : e.toList ++ ' ' :: '\x7d' :: r = e'.toList ++ ' ' :: '\x7d' :: r' := by
      simpa [chars, text] using h
    obtain ⟨rfl, _, rfl⟩ := name_mark_inj (hext e rfl) (hext' e' rfl) htexts
    exact ⟨rfl, rfl⟩
  · rw [chars_record, chars_record] at h
    obtain ⟨heq, rfl⟩ := hfields rfl rfl (List.cons.inj h).2
    exact ⟨by rw [heq], rfl⟩
  · simp only [chars_record_ext, List.cons.injEq, true_and] at h
    obtain ⟨rfl, _, htexts⟩ := name_mark_inj (hext e rfl) (hext' e' rfl) h
    obtain ⟨heq, rfl⟩ := hfields rfl rfl htexts
    exact ⟨by rw [heq], rfl⟩

/-! ## Types -/

/-- At each place a type is determined by its text. -/
structure Unambiguous (A : Alphabet) (t : NamedType) : Prop where
  text : Told A chars Closes t
  operand : Told A operand Stops t
  atom : Told A atom Breaks t

def parts : NamedType → List NamedType
  | .var _ => []
  | .func arg ret => [arg, ret]
  | .app _ args => args
  | .record fields _ => fields.map Prod.snd
  | .error => []

theorem parens_append_inj (htold : Told A chars Closes t) (hu : u.WellNamed A)
    (h : '(' :: (t.chars ++ [')']) ++ r = '(' :: (u.chars ++ [')']) ++ r') :
    t = u ∧ r = r' := by
  simp only [List.cons_append, List.append_assoc, List.nil_append, List.cons.injEq, true_and] at h
  obtain ⟨rfl, hrest⟩ := htold _ _ _ hu .paren .paren h
  exact ⟨rfl, (List.cons.inj hrest).2⟩

theorem WellNamed.atom_ne_paren (h : t.WellNamed A) (hcompound : t.isCompound = false) :
    t.atom ++ r ≠ '(' :: r' := by
  obtain ⟨c, cs, hcs, hlead⟩ := h.exists_lead
  rw [atom_eq_operand hcompound, hcs, List.cons_append]
  rintro ⟨⟩
  have heq : t.lead = .mark '(' := hlead.unique ⟨rfl, by decide⟩
  cases t with
  | func => cases hcompound
  | _ => simp [lead] at heq

section Parts

variable (ht : t.WellNamed A) (hparts : ∀ s ∈ t.parts, s.Unambiguous A)

include ht hparts

theorem operand_cases (hfunc : t.isFunc = false) (hu : u.WellNamed A) (hr : Breaks r)
    (hr' : Breaks r') (h : t.operand ++ r = u.operand ++ r') :
    (t = u ∧ r = r') ∨ ∃ name ts us, t = .app name ts ∧ u = .app name us ∧
      (argsText ts).toList ++ r = (argsText us).toList ++ r' := by
  have hlead := lead_eq_of_append ht hu h
  cases ht with
  | func => cases hfunc
  | error =>
    cases hu with
    | error => exact .inl ⟨rfl, (List.cons.inj h).2⟩
    | _ => simp [lead] at hlead
  | var hx =>
    cases hu with
    | var hy =>
      obtain ⟨rfl, rfl⟩ := name_append_inj hx.1 hy.1 hr hr' h
      exact .inl ⟨rfl, rfl⟩
    | _ => cases hlead
  | record hfs _ hext =>
    cases hu with
    | record hgs hgs' hext' =>
      exact .inl (record_append_inj hfs (fun f hf => (hparts f.2 (List.mem_map_of_mem hf)).text)
        (fun x hx => (hext x hx).1) hgs hgs' (fun x hx => (hext' x hx).1) h)
    | _ => simp [lead] at hlead
  | @app x ts hx _ =>
    cases hu with
    | @app y us hy _ =>
      have htexts : x.toList ++ ((argsText ts).toList ++ r) =
          y.toList ++ ((argsText us).toList ++ r') := by
        simpa [operand_eq, isFunc, chars, text] using h
      obtain ⟨rfl, hargs⟩ :=
        name_append_inj hx.1 hy.1 (breaks_args ts hr) (breaks_args us hr') htexts
      exact .inr ⟨x, ts, us, rfl, rfl, hargs⟩
    | _ => cases hlead

theorem told_operand (hfunc : t.isFunc = false) : Told A operand Stops t := by
  intro u r r' hu hr hr' h
  rcases operand_cases ht hparts hfunc hu hr.breaks hr'.breaks h with
    heq | ⟨x, ts, us, rfl, rfl, hargs⟩
  · exact heq
  · cases ht with | app _ hts =>
    cases hu with | app _ hus =>
    obtain ⟨rfl, rfl⟩ := args_append_inj hts (fun s hs => (hparts s hs).atom) hus hr hr' hargs
    exact ⟨rfl, rfl⟩

theorem told_text : Told A chars Closes t := by
  intro u r r' hu hr hr' h
  cases hfunc : t.isFunc with
  | false =>
    have htold := told_operand ht hparts hfunc
    have htext : t.chars = t.operand := by rw [operand_eq, hfunc]; rfl
    cases hfunc' : u.isFunc with
    | false =>
      refine htold u r r' hu (.closes hr) (.closes hr') ?_
      rw [← htext, operand_eq, hfunc']
      exact h
    | true =>
      cases hu with
      | func harg _ =>
        rw [htext, chars_func] at h
        exact absurd (htold _ _ _ harg (.closes hr) .arrow h).2 hr.not_arrow
      | _ => cases hfunc'
  | true =>
    cases ht with
    | func =>
      have harg := (hparts _ (.head _)).operand
      have hret := (hparts _ (.tail _ (.head _))).text
      rw [chars_func] at h
      cases hfunc' : u.isFunc with
      | false =>
        have htext : u.chars = u.operand := by rw [operand_eq, hfunc']; rfl
        rw [htext] at h
        exact absurd (harg _ _ _ hu .arrow (.closes hr') h).2.symm hr'.not_arrow
      | true =>
        cases hu with
        | func hu hu' =>
          rw [chars_func] at h
          obtain ⟨rfl, hrest⟩ := harg _ _ _ hu .arrow .arrow h
          simp only [List.cons.injEq, true_and] at hrest
          obtain ⟨rfl, rfl⟩ := hret _ _ _ hu' hr hr' hrest
          exact ⟨rfl, rfl⟩
        | _ => cases hfunc'
    | _ => cases hfunc

theorem told_atom : Told A atom Breaks t := by
  intro u r r' hu hr hr' h
  cases hcompound : t.isCompound with
  | true =>
    cases hcompound' : u.isCompound with
    | true =>
      rw [atom_eq, atom_eq, hcompound, hcompound'] at h
      exact parens_append_inj (told_text ht hparts) hu h
    | false =>
      rw [atom_eq, hcompound] at h
      exact absurd h.symm (hu.atom_ne_paren hcompound')
  | false =>
    cases hcompound' : u.isCompound with
    | true =>
      rw [atom_eq u, hcompound'] at h
      exact absurd h (ht.atom_ne_paren hcompound)
    | false =>
      rw [atom_eq_operand hcompound, atom_eq_operand hcompound'] at h
      rcases operand_cases ht hparts (isFunc_of_isCompound hcompound) hu hr hr' h with
        heq | ⟨x, ts, us, rfl, rfl, hargs⟩
      · exact heq
      · obtain rfl : ts = [] := by simpa [isCompound] using hcompound
        obtain rfl : us = [] := by simpa [isCompound] using hcompound'
        exact ⟨rfl, hargs⟩

/-- In parentheses a function is told from other operands. -/
theorem unambiguous_of_parts : t.Unambiguous A := by
  refine ⟨told_text ht hparts, ?_, told_atom ht hparts⟩
  cases hfunc : t.isFunc with
  | false => exact told_operand ht hparts hfunc
  | true =>
    intro u r r' hu _ _ h
    have hlead := lead_eq_of_append ht hu h
    have hfunc' : u.isFunc = true := by
      cases ht with
      | func => cases hu <;> first | rfl | simp [lead] at hlead
      | _ => cases hfunc
    rw [operand_eq, operand_eq, hfunc, hfunc'] at h
    exact parens_append_inj (told_text ht hparts) hu h

end Parts

theorem WellNamed.unambiguous (h : t.WellNamed A) : t.Unambiguous A := by
  induction h with
  | var hname => exact unambiguous_of_parts (.var hname) fun s hs => by cases hs
  | error => exact unambiguous_of_parts .error fun s hs => by cases hs
  | func harg hret iharg ihret =>
    refine unambiguous_of_parts (.func harg hret) fun s hs => ?_
    obtain rfl | rfl : s = _ ∨ s = _ := by simpa [parts] using hs
    · exact iharg
    · exact ihret
  | app hname hargs ih => exact unambiguous_of_parts (.app hname hargs) ih
  | record hnames hfields hext ih =>
    refine unambiguous_of_parts (.record hnames hfields hext) fun s hs => ?_
    obtain ⟨f, hf, rfl⟩ := List.mem_map.mp hs
    exact ih f hf

/-- Types with the same text are the same. -/
theorem eq_of_text_eq (ht : t.WellNamed A) (hu : u.WellNamed A) (h : t.text = u.text) : t = u := by
  have htexts : t.chars ++ [] = u.chars ++ [] := by rw [chars, chars, h]
  exact (ht.unambiguous.text u [] [] hu .nil .nil htexts).1

def nestedArrows (fields : List (String × NamedType)) : NamedType :=
  .func (.func (.var "a") (.app "List" [.app "Maybe" [.con "Int"], .error]))
    (.record (Assoc.ofList fields) (some "r"))

theorem wellNamed_nestedArrows {fields : List (String × NamedType)}
    (h : Assoc.ofList fields = [("f", .func (.var "a") (.record [] none)), ("g2", .var "s")]) :
    (nestedArrows fields).WellNamed .ascii := by
  have hvar : WellNamed .ascii (.var "a") := .var (by decide)
  have hint : WellNamed .ascii (.con "Int") := .app (by decide) (by simp)
  have hmaybe : WellNamed .ascii (.app "Maybe" [.con "Int"]) := .app (by decide) (by simpa using hint)
  have hlist : WellNamed .ascii (.app "List" [.app "Maybe" [.con "Int"], .error]) :=
    .app (by decide) (by simpa using ⟨hmaybe, .error⟩)
  have hempty : WellNamed .ascii (.record [] none) := .record (by simp) (by simp) (by simp)
  refine .func (.func hvar hlist) ?_
  rw [h]
  exact .record (by decide) (by simpa using ⟨.func hvar hempty, .var (by decide)⟩) (by decide)

/-- The fields of a record may be given in any order. -/
theorem eq_of_text_eq_swapped :
    let t := nestedArrows [("f", .func (.var "a") (.record [] none)), ("g2", .var "s")]
    let u := nestedArrows [("g2", .var "s"), ("f", .func (.var "a") (.record [] none))]
    t.WellNamed .ascii ∧ u.WellNamed .ascii ∧
      t.text = "(a -> List (Maybe Int) ?) -> \x7b r | f : a -> \x7b\x7d, g2 : s \x7d" ∧
      u.text = "(a -> List (Maybe Int) ?) -> \x7b r | f : a -> \x7b\x7d, g2 : s \x7d" ∧ t = u :=
  have ht := wellNamed_nestedArrows rfl
  have hu := wellNamed_nestedArrows rfl
  ⟨ht, hu, by decide +kernel, by decide +kernel, eq_of_text_eq ht hu (by decide +kernel)⟩

end NamedType
end TypeSolver
