import TypeSolver.Proofs.Meaning

/-!
# TypeSolver.Proofs.RowParameters

Exchanging the arguments of an alias for types with the same meanings. The application keeps its
meaning (`Usable.same_app`), with one restriction: where the alias puts a parameter behind the
fields of a record, only a variable or a record can be its argument, and otherwise the alias is not
expanded. So an argument there may be exchanged for another only if both are rows or neither is.
-/

namespace TypeSolver

/-- A type that can be put behind the fields of a record. -/
def Ty.isRow : Ty → Bool
  | .var _ => true
  | .record _ _ => true
  | _ => false

namespace Signature

/-- The signature puts the variable of this name behind the fields of a record, or passes it on to
an alias that does. -/
inductive RowParameter (table : AliasTable) : String → Signature → Prop where
  | ext {x : String} {fields : List (String × Signature)} :
      RowParameter table x (.record fields (some x))
  | field {x : String} {fields : List (String × Signature)} {ext : Option String}
      {f : String × Signature} : f ∈ fields → RowParameter table x f.2 →
      RowParameter table x (.record fields ext)
  | arg {x : String} {arg ret : Signature} : RowParameter table x arg →
      RowParameter table x (.func arg ret)
  | ret {x : String} {arg ret : Signature} : RowParameter table x ret →
      RowParameter table x (.func arg ret)
  | con {x name : String} {args : List Signature} {a : Signature} : a ∈ args →
      RowParameter table x a → RowParameter table x (.con name args)
  | passed {x p name : String} {args : List Signature} {entry : Alias} :
      Assoc.get? table name = some entry → (p, .var x) ∈ entry.params.zip args →
      RowParameter table p entry.body → RowParameter table x (.con name args)

theorem isRow_toTy {σ σ' : List (String × Ty)} {e : Signature} {t t' : Ty}
    (h : e.toTy σ = .ok t) (h' : e.toTy σ' = .ok t') (he : ∀ x, e ≠ .var x) :
    t.isRow = t'.isRow := by
  have hrow : ∀ {σ t}, e.toTy σ = .ok t →
      t.isRow = (match e with | .record _ _ => true | _ => false) := by
    intro σ t h
    cases e with
    | var x => exact absurd rfl (he x)
    | con name args => obtain ⟨_, _, rfl⟩ := toTy_con.mp h; rfl
    | func arg ret => obtain ⟨_, _, _, _, rfl⟩ := toTy_func.mp h; rfl
    | record fields ext =>
      obtain ⟨_, _, h⟩ := toTy_record.mp h
      cases ext with
      | none => cases h; rfl
      | some x => rcases extend_ok.mp h with ⟨v, _, rfl⟩ | ⟨more, rest, _, rfl⟩ <;> rfl
  rw [hrow h, hrow h']

end Signature

variable {α β γ : Type} {table : AliasTable} {args args' : List Ty}

theorem exists_of_mem_zip {δ : Type} {R : β → γ → Prop} {S : β → δ → Prop} {ps : List α}
    {xs : List β} {ys : List γ} {zs : List δ} (h : List.Forall₂ R xs ys)
    (h' : List.Forall₂ S xs zs) :
    ∀ q ∈ ps.zip (ys.zip zs), ∃ x, (q.1, x) ∈ ps.zip xs ∧ R x q.2.1 ∧ S x q.2.2 := by
  induction ps generalizing xs ys zs with
  | nil => simp
  | cons p ps ih =>
    intro q hq
    cases h with
    | nil => simp at hq
    | cons hxy h =>
      cases h' with
      | cons hxz h' =>
        rcases List.mem_cons.mp hq with rfl | hq
        · exact ⟨_, List.mem_cons_self, hxy, hxz⟩
        · obtain ⟨x, hmem, hR, hS⟩ := ih h h' q hq
          exact ⟨x, List.mem_cons_of_mem _ hmem, hR, hS⟩

theorem forall₂_of_left {R : α → β → Prop} {S : α → γ → Prop} {Q : β → γ → Prop} {xs : List α}
    {ys : List β} {zs : List γ} (h : List.Forall₂ R xs ys) (h' : List.Forall₂ S xs zs)
    (hQ : ∀ x ∈ xs, ∀ y z, R x y → S x z → Q y z) : List.Forall₂ Q ys zs := by
  induction h generalizing zs with
  | nil => cases h'; exact .nil
  | cons hxy _ ih =>
    cases h' with
    | cons hxz h' =>
      exact .cons (hQ _ (by simp) _ _ hxy hxz) (ih h' fun x hx => hQ x (by simp [hx]))

theorem Same.exists_fields {θ : Valuation} {fs gs : List (String × Ty)}
    (h : Assoc.Related (Same table θ) fs gs) : ∃ ms, Assoc.Related (Denotes table θ) fs ms ∧
      Assoc.Related (Denotes table θ) gs ms := by
  induction h with
  | nil => exact ⟨[], .nil, .nil⟩
  | @cons f g _ _ hfg _ ih =>
    obtain ⟨hk, m, hf, hg⟩ := hfg
    obtain ⟨ms, hfs, hgs⟩ := ih
    exact ⟨(f.1, m) :: ms, .cons ⟨rfl, hf⟩ hfs, .cons ⟨hk.symm, hg⟩ hgs⟩

/-- Where the alias uses a parameter as a row, both arguments are rows or neither is. -/
def AliasTable.RowsAlike (table : AliasTable) (name : String) (args args' : List Ty) : Prop :=
  ∀ entry, Assoc.get? table name = some entry → ∀ q ∈ entry.params.zip (args.zip args'),
    Signature.RowParameter table q.1 entry.body → q.2.1.isRow = q.2.2.isRow

theorem AliasTable.RowsAlike.symm {name : String} (h : table.RowsAlike name args args') :
    table.RowsAlike name args' args := by
  intro entry hentry q hq hparam
  rw [← List.zip_swap args args', List.zip_map_right, List.mem_map] at hq
  obtain ⟨q', hq', rfl⟩ := hq
  exact (h entry hentry q' hq' hparam).symm

theorem exists_of_get?_params {params : List String} (hlen : args.length = args'.length)
    {x : String} {a : Ty} (ha : Assoc.get? (params.zip args).reverse x = some a) :
    ∃ a', Assoc.get? (params.zip args').reverse x = some a' ∧
      (x, (a, a')) ∈ params.zip (args.zip args') := by
  have hforall : List.Forall₂ (fun e e' => e.1 = e'.1 ∧
      (e.1, (e.2, e'.2)) ∈ params.zip (args.zip args')) (params.zip args) (params.zip args') := by
    clear ha
    induction params generalizing args args' with
    | nil => exact .nil
    | cons p params ih =>
      cases args with
      | nil => cases args' with
        | nil => exact .nil
        | cons => simp at hlen
      | cons a args => cases args' with
        | nil => simp at hlen
        | cons a' args' =>
          refine .cons ⟨rfl, List.mem_cons_self⟩ ((ih (by simpa using hlen)).imp fun e e' h => ?_)
          exact ⟨h.1, List.mem_cons_of_mem _ h.2⟩
  have hrel := Assoc.get?_rel (S := fun k a a' => (k, (a, a')) ∈ params.zip (args.zip args'))
    (List.forall₂_reverse_iff.mpr hforall) x
  rw [ha] at hrel
  cases hb : Assoc.get? (params.zip args').reverse x with
  | none => rw [hb] at hrel; cases hrel
  | some b => rw [hb] at hrel; cases hrel with | some h => exact ⟨b, rfl, h⟩

section Exchange

variable {table : AliasTable} {θ : Valuation} {V : Var → Prop} (hθ : ∀ v, (θ v).Tidy)

include hθ

theorem extend_same {fs gs : List (String × Ty)} (hf : Assoc.Sorted fs)
    (hfg : Assoc.Related (Same table θ) fs gs) {x : String} {a a' t : Ty} (hrow : a.isRow = a'.isRow)
    (ha : a.Over V) (ha' : a'.Over V) (haa' : Same table θ a a')
    (ht : Signature.extend fs x (some a) = .ok t) :
    ∃ t', Signature.extend gs x (some a') = .ok t' ∧ Same table θ t t' := by
  obtain ⟨ms, hfs, hgs⟩ := Same.exists_fields hfg
  obtain ⟨m, hm, hm'⟩ := haa'
  have hmeans : ∀ {fs a t}, Assoc.Sorted fs → Assoc.Related (Denotes table θ) fs ms → a.Over V →
      Denotes table θ a m → Signature.extend fs x (some a) = .ok t →
      Denotes table θ t (Meaning.close ms m) := by
    intro fs a t hf hfs ha hm ht
    rcases Signature.extend_ok.mp ht with ⟨v, heq, rfl⟩ | ⟨more, rest, heq, rfl⟩
    · cases heq
      rw [Denotes.var_iff.mp hm]
      exact Denotes.record_iff.mpr ⟨ms, rfl, hfs⟩
    · cases heq
      exact hm.union hθ hf (Ty.over_record.mp ha).1 hfs
  have hex : ∃ t', Signature.extend gs x (some a') = .ok t' := by
    rcases Signature.extend_ok.mp ht with ⟨v, heq, rfl⟩ | ⟨more, rest, heq, rfl⟩ <;> cases heq <;>
      cases a' <;> first | exact ⟨_, rfl⟩ | cases hrow
  obtain ⟨t', ht'⟩ := hex
  exact ⟨t', ht', _, hmeans hf hfs ha hm ht,
    hmeans (hgs.sorted_iff.mpr (hfs.sorted_iff.mp hf)) hgs ha' hm' ht'⟩

namespace Signature

theorem toTy_same {σ σ' : List (String × Ty)} (hσ : ∀ x t, Assoc.get? σ x = some t → t.Over V)
    (hσ' : ∀ x t, Assoc.get? σ' x = some t → t.Over V)
    (hget : ∀ x a, Assoc.get? σ x = some a →
      ∃ a', Assoc.get? σ' x = some a' ∧ Same table θ a a') {e : Signature} :
    e.Ordered →
    (∀ x a a', RowParameter table x e → Assoc.get? σ x = some a → Assoc.get? σ' x = some a' →
      a.isRow = a'.isRow) →
    (∀ name ∈ e.constructors, ∀ args args', (∀ a ∈ args, a.Over V) → (∀ a ∈ args', a.Over V) →
      List.Forall₂ (Same table θ) args args' → table.RowsAlike name args args' →
      Same table θ (.app name args) (.app name args')) →
    ∀ t, e.toTy σ = .ok t → ∃ t', e.toTy σ' = .ok t' ∧ Same table θ t t' := by
  induction e with
  | var x =>
    intro _ _ _ t ht
    obtain ⟨a', ha', hs⟩ := hget x t (toTy_var.mp ht)
    exact ⟨a', toTy_var.mpr ha', hs⟩
  | con name args ih =>
    intro ho hrow happ t ht
    cases ho with
    | con ho =>
      obtain ⟨ts, hts, rfl⟩ := toTy_con.mp ht
      have hargs : ∀ a ∈ args, ∀ t, a.toTy σ = .ok t → ∃ t', a.toTy σ' = .ok t' ∧
          Same table θ t t' := fun a ha =>
        ih a ha (ho a ha) (fun x u u' hx => hrow x u u' (.con ha hx)) fun c hc => happ c (by
          simp only [constructors, List.mem_cons, mem_constructorsList]
          exact .inr ⟨a, ha, hc⟩)
      obtain ⟨ts', hts'⟩ : ∃ ts', List.Forall₂ (fun a t => a.toTy σ' = .ok t) args ts' := by
        refine exists_forall₂ fun a ha => ?_
        obtain ⟨t, _, hat⟩ := exists_of_forall₂_left hts ha
        obtain ⟨t', hat', _⟩ := hargs a ha t hat
        exact ⟨t', hat'⟩
      refine ⟨.app name ts', toTy_con.mpr ⟨ts', hts', rfl⟩, ?_⟩
      refine happ name (by simp [constructors]) ts ts' ?_ ?_ ?_ ?_
      · intro t ht
        obtain ⟨a, ha, hat⟩ := exists_of_forall₂_right hts ht
        exact toTy_over hσ (ho a ha) hat
      · intro t ht
        obtain ⟨a, ha, hat⟩ := exists_of_forall₂_right hts' ht
        exact toTy_over hσ' (ho a ha) hat
      · refine forall₂_of_left hts hts' fun a ha t t' hat hat' => ?_
        obtain ⟨t'', hat'', hs⟩ := hargs a ha t hat
        rw [hat'] at hat''
        cases hat''
        exact hs
      · intro entry hentry q hq hparam
        obtain ⟨a, hmem, hat, hat'⟩ := exists_of_mem_zip hts hts' q hq
        by_cases hvar : ∃ x, a = .var x
        · obtain ⟨x, rfl⟩ := hvar
          exact hrow x _ _ (.passed hentry hmem hparam) (toTy_var.mp hat) (toTy_var.mp hat')
        · exact isRow_toTy hat hat' fun x hx => hvar ⟨x, hx⟩
  | func arg ret iha ihr =>
    intro ho hrow happ t ht
    cases ho with
    | func hoa hor =>
      obtain ⟨a, r, ha, hr, rfl⟩ := toTy_func.mp ht
      obtain ⟨a', ha', hsa⟩ := iha hoa (fun x u u' hx => hrow x u u' (.arg hx))
        (fun c hc => happ c (by simp [constructors, hc])) a ha
      obtain ⟨r', hr', hsr⟩ := ihr hor (fun x u u' hx => hrow x u u' (.ret hx))
        (fun c hc => happ c (by simp [constructors, hc])) r hr
      exact ⟨.func a' r', toTy_func.mpr ⟨a', r', ha', hr', rfl⟩, hsa.func hsr⟩
  | record fields ext ih =>
    intro ho hrow happ t ht
    cases ho with
    | record hs ho =>
      obtain ⟨gs, hgs, ht⟩ := toTy_record.mp ht
      have hfields : ∀ f ∈ fields, ∀ t, f.2.toTy σ = .ok t → ∃ t', f.2.toTy σ' = .ok t' ∧
          Same table θ t t' := fun f hf =>
        ih f hf (ho f hf) (fun x u u' hx => hrow x u u' (.field hf hx)) fun c hc => happ c (by
          simp only [constructors, mem_constructorsFields]
          exact ⟨f, hf, hc⟩)
      obtain ⟨gs', hgs'⟩ : ∃ gs', Assoc.Related (fun e t => e.toTy σ' = .ok t) fields gs' := by
        refine Assoc.exists_related fun f hf => ?_
        obtain ⟨g, _, _, hfg⟩ := exists_of_forall₂_left hgs hf
        obtain ⟨t', ht', _⟩ := hfields f hf g.2 hfg
        exact ⟨t', ht'⟩
      have hrel : Assoc.Related (Same table θ) gs gs' := by
        refine forall₂_of_left hgs hgs' fun f hf g g' hfg hfg' => ⟨hfg.1.symm.trans hfg'.1, ?_⟩
        obtain ⟨t', ht', hsame'⟩ := hfields f hf g.2 hfg.2
        rw [hfg'.2] at ht'
        cases ht'
        exact hsame'
      cases ext with
      | none =>
        cases ht
        obtain ⟨ms, hms, hms'⟩ := Same.exists_fields hrel
        exact ⟨.record gs' none, toTy_record.mpr ⟨gs', hgs', rfl⟩, _,
          Denotes.record_iff.mpr ⟨ms, rfl, hms⟩, Denotes.record_iff.mpr ⟨ms, rfl, hms'⟩⟩
      | some x =>
        change extend gs x (Assoc.get? σ x) = .ok t at ht
        cases hx : Assoc.get? σ x with
        | none => rw [hx] at ht; cases ht
        | some a =>
          rw [hx] at ht
          obtain ⟨a', hx', hsa⟩ := hget x a hx
          obtain ⟨t', ht', hst⟩ := extend_same hθ (hgs.sorted_iff.mp hs) hrel
            (hrow x a a' .ext hx hx') (hσ x a hx) (hσ' x a' hx') hsa ht
          exact ⟨t', toTy_record.mpr ⟨gs', hgs', by simpa only [hx'] using ht'⟩, hst⟩

end Signature

theorem AliasTable.Usable.same_app (hu : table.Usable) {name : String}
    (hargs : ∀ a ∈ args, a.Over V) (hargs' : ∀ a ∈ args', a.Over V)
    (h : List.Forall₂ (Same table θ) args args') (hrow : table.RowsAlike name args args') :
    Same table θ (.app name args) (.app name args') := by
  induction name using hu.grounded.induction generalizing args args' with
  | _ name ih =>
    have hexpand : ∀ {args args' t}, (∀ a ∈ args, a.Over V) → (∀ a ∈ args', a.Over V) →
        List.Forall₂ (Same table θ) args args' → table.RowsAlike name args args' →
        table.expand name args = some (.ok t) →
        ∃ t', table.expand name args' = some (.ok t') ∧ Same table θ t t' := by
      intro args args' t hargs hargs' h hrow hex
      obtain ⟨entry, hentry, hlen, hbody⟩ := expand_ok.mp hex
      have hget : ∀ x a, Assoc.get? (entry.params.zip args).reverse x = some a → ∃ a',
          Assoc.get? (entry.params.zip args').reverse x = some a' ∧
            (x, a, a') ∈ entry.params.zip (args.zip args') := fun x a =>
        exists_of_get?_params h.length_eq
      have hbody' : ∃ t', entry.body.toTy (entry.params.zip args').reverse = .ok t' ∧
          Same table θ t t' := Signature.toTy_same hθ
        (fun x u hu => hargs u (mem_args_of_get? hu)) (fun x u hu => hargs' u (mem_args_of_get? hu))
        (fun x a hx => by
          obtain ⟨a', hx', hmem⟩ := hget x a hx
          exact ⟨a', hx', (List.forall₂_iff_zip.mp h).2 (List.of_mem_zip hmem).2⟩)
        (hu.ordered name entry hentry)
        (fun x a a' hparam hx hx' => by
          obtain ⟨a'', hx'', hmem⟩ := hget x a hx
          cases hx'.symm.trans hx''
          exact hrow entry hentry _ hmem hparam)
        (fun c hc args args' hargs hargs' h hrow => by
          refine ih c ?_ hargs hargs' h hrow
          simp only [mentions, hentry]
          exact hc) t hbody
      obtain ⟨t', hbody', hsame⟩ := hbody'
      exact ⟨t', expand_ok.mpr ⟨entry, hentry, hlen.trans h.length_eq, hbody'⟩, hsame⟩
    by_cases hex : ∃ t, table.expand name args = some (.ok t)
    · obtain ⟨t, hex⟩ := hex
      obtain ⟨t', hex', m, hm, hm'⟩ := hexpand hargs hargs' h hrow hex
      exact ⟨m, .expanded hex hm, .expanded hex' hm'⟩
    · have hne' : ∀ t, table.expand name args' ≠ some (.ok t) := by
        intro t ht
        have hflip : List.Forall₂ (Same table θ) args' args :=
          List.Forall₂.imp (fun _ _ hs => Same.symm hs) (List.Forall₂.flip h)
        obtain ⟨t', ht', _⟩ := hexpand hargs' hargs hflip hrow.symm ht
        exact hex ⟨t', ht'⟩
      obtain ⟨ms, hms, hms'⟩ := Same.exists_meanings h.length_eq fun q hq =>
        (List.forall₂_iff_zip.mp h).2 hq
      exact ⟨_, (Denotes.app_iff fun t ht => hex ⟨t, ht⟩).mpr ⟨ms, rfl, hms⟩,
        (Denotes.app_iff hne').mpr ⟨ms, rfl, hms'⟩⟩

end Exchange

end TypeSolver
