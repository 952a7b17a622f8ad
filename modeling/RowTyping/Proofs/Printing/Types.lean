import RowTyping.Proofs.Printing.Words
import RowTyping.Proofs.Schemes

/-!
# Reading types back

Two well-kinded types whose names and labels are words, and whose schemes have one text, are the same
type, constraints included.

The argument reads a text from the left. What follows a type in a text cannot prolong it
(`EndsType`), what follows the fields of a row closes the record (`EndsRow`), and so the text of a
type is the only beginning of its kind: if two texts agree, the types at their beginning agree, and
what is left agrees (`Ty.reads`). The induction is on one of the two types; the
other one is taken apart by its first character.

The text of a type does not show the constraints of its variables. That variables of two types are
the same if they have one name comes from the part of the text in front (`Scheme.render_split`).
-/

namespace RowTyping

/-- The name of a variable and the labels that it lacks are words. -/
def TyVar.Spelled (v : TyVar) : Prop := Word v.name ∧ ∀ l ∈ v.labels.toList, Word l

instance decidableSpelledVar (v : TyVar) : Decidable v.Spelled :=
  inferInstanceAs (Decidable (Word v.name ∧ ∀ l ∈ v.labels.toList, Word l))

namespace Ty

/-- All names and labels in a type are words. -/
def Spelled : Ty → Prop
  | var v => v.Spelled
  | int | bool | rowEmpty => True
  | fn a r => a.Spelled ∧ r.Spelled
  | record r => r.Spelled
  | rowExtend l f t => Word l ∧ f.Spelled ∧ t.Spelled

/-- Spelling can be checked. -/
def decSpelled : (t : Ty) → Decidable t.Spelled
  | var v => inferInstanceAs (Decidable v.Spelled)
  | int => .isTrue trivial
  | bool => .isTrue trivial
  | rowEmpty => .isTrue trivial
  | fn a r => @instDecidableAnd _ _ a.decSpelled r.decSpelled
  | record r => r.decSpelled
  | rowExtend l f t =>
    @instDecidableAnd (Word l) _ inferInstance (@instDecidableAnd _ _ f.decSpelled t.decSpelled)

instance decidableSpelled (t : Ty) : Decidable t.Spelled := t.decSpelled

/-- No two variables of the type have one name. -/
def NamesApart (t : Ty) : Prop :=
  ∀ u ∈ t.freeVars.toList, ∀ v ∈ t.freeVars.toList, u.name = v.name → u = v

instance decidableNamesApart (t : Ty) : Decidable t.NamesApart :=
  inferInstanceAs (Decidable (∀ u ∈ t.freeVars.toList, ∀ v ∈ t.freeVars.toList,
    u.name = v.name → u = v))

theorem Spelled.of_mem_freeVars {t : Ty} (h : t.Spelled) {v : TyVar} (hv : v ∈ t.freeVars) :
    v.Spelled := by
  induction t with
  | var w =>
    rw [mem_freeVars_var] at hv
    exact hv ▸ h
  | int => simp at hv
  | bool => simp at hv
  | rowEmpty => simp at hv
  | fn a r iha ihr => exact (mem_freeVars_fn.1 hv).elim (iha h.1) (ihr h.2)
  | record r ih => exact ih h hv
  | rowExtend l f t ihf iht => exact (mem_freeVars_rowExtend.1 hv).elim (ihf h.2.1) (iht h.2.2)

/-! ## Texts as lists of characters -/

/-- The characters of a type. -/
def text (t : Ty) : List Char := t.render.toList

/-- The characters of an argument type. -/
def argText (t : Ty) : List Char := if t.isFn then '(' :: (t.text ++ [')']) else t.text

/-- The characters of a row between its brackets. -/
def rowText (t : Ty) : List Char := t.renderRow.toList

/-- The characters of what follows a field of a row. -/
def tailText (t : Ty) : List Char := t.renderTail.toList

section Equations

variable (v : TyVar) (l : String) (a r f t : Ty)

@[simp] theorem text_var : (var v).text = v.name.toList := rfl

@[simp] theorem text_int : int.text = ['I', 'n', 't'] := rfl

@[simp] theorem text_bool : bool.text = ['B', 'o', 'o', 'l'] := rfl

@[simp] theorem text_rowEmpty : rowEmpty.text = ['<', '>'] := rfl

@[simp] theorem text_fn : (fn a r).text = a.argText ++ ' ' :: '-' :: '>' :: ' ' :: r.text := by
  show ((if a.isFn then "(" ++ a.render ++ ")" else a.render) ++ " -> " ++ r.render).toList = _
  rw [argText]
  split <;> simp [text]

@[simp] theorem text_record : (record r).text = '\x7b' :: (r.rowText ++ ['\x7d']) := by
  show ("\x7b" ++ r.renderRow ++ "\x7d").toList = _
  simp [rowText]

@[simp] theorem rowText_var : (var v).rowText = '|' :: ' ' :: v.name.toList := by
  show ("| " ++ v.name).toList = _
  simp

@[simp] theorem rowText_rowEmpty : rowEmpty.rowText = [] := rfl

@[simp] theorem rowText_rowExtend : (rowExtend l f t).rowText =
    l.toList ++ ' ' :: '=' :: ' ' :: (f.text ++ t.tailText) := by
  show (l ++ " = " ++ f.render ++ t.renderTail).toList = _
  simp [text, tailText]

@[simp] theorem tailText_var : (var v).tailText = ' ' :: (var v).rowText := by
  show (" | " ++ v.name).toList = _
  simp

@[simp] theorem tailText_rowEmpty : rowEmpty.tailText = [] := rfl

theorem tailText_rowExtend :
    (rowExtend l f t).tailText = ',' :: ' ' :: (rowExtend l f t).rowText := by
  show (", " ++ l ++ " = " ++ f.render ++ t.renderTail).toList = _
  simp [text, tailText]

@[simp] theorem text_rowExtend :
    (rowExtend l f t).text = '<' :: ((rowExtend l f t).rowText ++ ['>']) := by
  show ("<" ++ l ++ " = " ++ f.render ++ t.renderTail ++ ">").toList = _
  simp [text, tailText]

@[simp] theorem argText_fn : (fn a r).argText = '(' :: ((fn a r).text ++ [')']) := if_pos rfl

/-- Between the brackets of a record there is nothing to write for what is no row. -/
theorem rowText_of_not_row {t : Ty} (h : t.isRow = false) : t.rowText = [] ∧ t.tailText = [] := by
  cases t with
  | var v => cases h
  | rowEmpty => cases h
  | rowExtend l f t => cases h
  | _ => exact ⟨rfl, rfl⟩

theorem argText_of_not_fn {t : Ty} (h : t.isFn = false) : t.argText = t.text := by
  rw [argText, h]
  rfl

end Equations

end Ty

/-! ## What may follow -/

/-- The text does not prolong a type in front of it: it goes on neither with a word nor with an
arrow. -/
def EndsType (r : List Char) : Prop := Stops isWordChar r ∧ ∀ r', r ≠ ' ' :: '-' :: r'

/-- The text goes on with the closing bracket of a row. -/
def EndsRow (r : List Char) : Prop := ∃ c r', r = c :: r' ∧ (c = '\x7d' ∨ c = '>')

theorem endsType_nil : EndsType [] := ⟨stops_nil, fun _ h => by cases h⟩

theorem endsType_cons {c : Char} {r : List Char} (hc : isWordChar c = false) (hc' : c ≠ ' ') :
    EndsType (c :: r) := by
  refine ⟨stops_cons.2 hc, fun r' h => hc' ?_⟩
  exact (List.cons.inj h).1

theorem endsRow_brace (r : List Char) : EndsRow ('\x7d' :: r) := ⟨_, r, rfl, .inl rfl⟩

theorem endsRow_angle (r : List Char) : EndsRow ('>' :: r) := ⟨_, r, rfl, .inr rfl⟩

theorem EndsRow.stops {r : List Char} (h : EndsRow r) : Stops isWordChar r := by
  obtain ⟨c, r', rfl, rfl | rfl⟩ := h <;> exact stops_cons.2 rfl

/-- The closing bracket of a row is none of the characters that go on with it. -/
theorem EndsRow.ne_cons {r r' : List Char} (h : EndsRow r) {c : Char} (hb : c ≠ '\x7d')
    (ha : c ≠ '>') : r ≠ c :: r' := by
  obtain ⟨d, r₁, rfl, rfl | rfl⟩ := h
  · exact fun he => hb (List.cons.inj he).1.symm
  · exact fun he => ha (List.cons.inj he).1.symm

theorem EndsRow.ne_word {w : String} (hw : Word w) {r r' : List Char} (h : EndsRow r) :
    r ≠ w.toList ++ r' := by
  obtain ⟨c, r₁, rfl, rfl | rfl⟩ := h <;> exact (hw.append_ne_cons rfl).symm

namespace Ty

/-- The type has a kind and can be read: its names and labels are words, and its variables satisfy
`P`. -/
structure Legible (P : TyVar → Prop) (c : Constraint) (t : Ty) : Prop where
  kind : t.HasKind c
  spelled : t.Spelled
  vars : t.Over P

section Legible

variable {P : TyVar → Prop} {c : Constraint} {v : TyVar} {l : String} {a r f t : Ty}

theorem Legible.var (h : (var v).Legible P c) : P v ∧ Word v.name ∧ c.Within v.constraint :=
  ⟨over_var.1 h.vars, h.spelled.1, h.kind⟩

theorem Legible.fn (h : (fn a r).Legible P .free) :
    a.Legible P .free ∧ r.Legible P .free :=
  ⟨⟨h.kind.1, h.spelled.1, (over_fn.1 h.vars).1⟩, h.kind.2, h.spelled.2, (over_fn.1 h.vars).2⟩

theorem Legible.record (h : (record r).Legible P .free) : r.Legible P (.lacks .empty) :=
  ⟨h.kind, h.spelled, h.vars⟩

theorem Legible.rowExtend (h : (rowExtend l f t).Legible P (.lacks .empty)) :
    Word l ∧ f.Legible P .free ∧ t.Legible P (.lacks .empty) :=
  ⟨h.spelled.1, ⟨h.kind.2.1, h.spelled.2.1, (over_rowExtend.1 h.vars).1⟩,
    h.kind.2.2.row, h.spelled.2.2, (over_rowExtend.1 h.vars).2⟩

/-- What follows a field does not prolong its type. -/
theorem Legible.endsType_tail (h : t.Legible P (.lacks .empty)) {r : List Char} (hr : EndsRow r) :
    EndsType (t.tailText ++ r) := by
  cases t with
  | var v =>
    rw [tailText_var, rowText_var]
    refine ⟨stops_cons.2 rfl, fun r' he => ?_⟩
    simp at he
  | rowEmpty =>
    obtain ⟨c, r', rfl, rfl | rfl⟩ := hr <;> exact endsType_cons rfl (by decide)
  | rowExtend l f t =>
    rw [tailText_rowExtend]
    exact endsType_cons rfl (by decide)
  | _ => exact h.kind.elim

end Legible

/-! ## Reading from the left -/

/-- The first character of an argument type; none for a variable, which starts with its name. -/
def mark : Ty → Option Char
  | int => some 'I'
  | bool => some 'B'
  | fn .. => some '('
  | record _ => some '\x7b'
  | _ => none

section Reads

variable {P P' : TyVar → Prop}

theorem Legible.exists_mark {t : Ty} (h : t.Legible P .free) :
    ∃ c cs, t.argText = c :: cs ∧ t.mark = if c.isLower then none else some c := by
  cases t with
  | var v =>
    obtain ⟨c, cs, hname, hc⟩ := h.var.2.1.exists_cons
    refine ⟨c, cs, ?_, by rw [if_pos hc]; rfl⟩
    rw [argText_of_not_fn rfl, text_var, hname]
  | int => exact ⟨'I', _, (argText_of_not_fn rfl).trans text_int, rfl⟩
  | bool => exact ⟨'B', _, (argText_of_not_fn rfl).trans text_bool, rfl⟩
  | fn a r => exact ⟨'(', _, argText_fn a r, rfl⟩
  | record r => exact ⟨'\x7b', _, (argText_of_not_fn rfl).trans (text_record r), rfl⟩
  | rowEmpty => exact h.kind.elim
  | rowExtend l f t => exact h.kind.elim

/-- Types whose texts start alike are built alike. -/
theorem Legible.mark_eq {t t' : Ty} (h : t.Legible P .free) (h' : t'.Legible P' .free)
    {r r' : List Char} (he : t.argText ++ r = t'.argText ++ r') : t.mark = t'.mark := by
  obtain ⟨c, cs, hc, hm⟩ := h.exists_mark
  obtain ⟨c', cs', hc', hm'⟩ := h'.exists_mark
  rw [hc, hc'] at he
  obtain ⟨rfl, -⟩ := List.cons.inj he
  rw [hm, hm']

variable (P') in
/-- As an argument, the type is the only one that a text can start with. -/
def ArgReads (t : Ty) : Prop :=
  ∀ ⦃t' : Ty⦄ ⦃r r' : List Char⦄, t'.Legible P' .free → Stops isWordChar r → Stops isWordChar r' →
    t.argText ++ r = t'.argText ++ r' → t = t' ∧ r = r'

variable (P') in
/-- The type is the only one that a text can start with, if nothing prolongs it. -/
def TypeReads (t : Ty) : Prop :=
  ∀ ⦃t' : Ty⦄ ⦃r r' : List Char⦄, t'.Legible P' .free → EndsType r → EndsType r' →
    t.text ++ r = t'.text ++ r' → t = t' ∧ r = r'

variable (P') in
/-- The row is the only one that a text can start with, up to the closing bracket. -/
def RowReads (t : Ty) : Prop :=
  ∀ ⦃t' : Ty⦄ ⦃r r' : List Char⦄, t'.Legible P' (.lacks .empty) → EndsRow r → EndsRow r' →
    t.rowText ++ r = t'.rowText ++ r' → t = t' ∧ r = r'

theorem ArgReads.typeReads {t : Ty} (ht : t.isFn = false) (h : t.ArgReads P') : t.TypeReads P' := by
  intro t' r r' h' hr hr' he
  rw [← argText_of_not_fn ht] at he
  cases hfn : t'.isFn with
  | false =>
    rw [← argText_of_not_fn hfn] at he
    exact h h' hr.1 hr'.1 he
  | true =>
    -- The other text has an arrow where this one must end.
    cases t' with
    | fn a' b' =>
      simp only [text_fn, List.append_assoc, List.cons_append] at he
      obtain ⟨-, rfl⟩ := h h'.fn.1 hr.1 (stops_cons.2 rfl) he
      exact absurd rfl (hr.2 _)
    | _ => cases hfn

theorem typeReads_fn {a b : Ty} (ha : a.ArgReads P') (hb : b.TypeReads P') :
    (fn a b).TypeReads P' := by
  intro t' r r' h' hr hr' he
  simp only [text_fn, List.append_assoc, List.cons_append] at he
  cases hfn : t'.isFn with
  | false =>
    rw [← argText_of_not_fn hfn] at he
    obtain ⟨-, hrest⟩ := ha h' (stops_cons.2 rfl) hr'.1 he
    exact absurd hrest.symm (hr'.2 _)
  | true =>
    cases t' with
    | fn a' b' =>
      simp only [text_fn, List.append_assoc, List.cons_append] at he
      obtain ⟨rfl, hrest⟩ := ha h'.fn.1 (stops_cons.2 rfl) (stops_cons.2 rfl) he
      simp only [List.cons.injEq, true_and] at hrest
      obtain ⟨rfl, hr⟩ := hb h'.fn.2 hr hr' hrest
      exact ⟨rfl, hr⟩
    | _ => cases hfn

theorem argReads_fn {a b : Ty} (h : (fn a b).Legible P .free) (hab : (fn a b).TypeReads P') :
    (fn a b).ArgReads P' := by
  intro t' r r' h' _ _ he
  have hm := h.mark_eq h' he
  cases t' with
  | fn a' b' =>
    simp only [argText_fn, List.cons_append, List.append_assoc, List.cons.injEq, true_and,
      List.nil_append] at he
    have hstop : ∀ r, EndsType (')' :: r) := fun r => endsType_cons rfl (by decide)
    obtain ⟨hfn, hr⟩ := hab h' (hstop r) (hstop r') he
    exact ⟨hfn, (List.cons.inj hr).2⟩
  | _ => cases hm

theorem argReads_record {row : Ty} (h : (record row).Legible P .free) (hrow : row.RowReads P') :
    (record row).ArgReads P' := by
  intro t' r r' h' _ _ he
  have hm := h.mark_eq h' he
  cases t' with
  | record row' =>
    rw [argText_of_not_fn rfl, argText_of_not_fn rfl] at he
    simp only [text_record, List.cons_append, List.append_assoc, List.cons.injEq, true_and,
      List.nil_append] at he
    obtain ⟨rfl, hr⟩ := hrow h'.record (endsRow_brace r) (endsRow_brace r') he
    exact ⟨rfl, (List.cons.inj hr).2⟩
  | _ => cases hm

/-- A base type is read off its first character. -/
theorem argReads_base {t : Ty} (h : t.Legible P .free) (ht : t = int ∨ t = bool) :
    t.ArgReads P' := by
  intro t' r r' h' _ _ he
  have hm := h.mark_eq h' he
  have htt : t' = t := by
    rcases ht with rfl | rfl
    · cases t' with
      | int => rfl
      | _ => cases hm
    · cases t' with
      | bool => rfl
      | _ => cases hm
  subst htt
  exact ⟨rfl, List.append_cancel_left he⟩

section Agree

variable (hagree : ∀ v v', P v → P' v' → v.name = v'.name →
  (v.constraint = .free ↔ v'.constraint = .free) → v = v')

include hagree

theorem argReads_var {v : TyVar} (h : (var v).Legible P .free) : (var v).ArgReads P' := by
  intro t' r r' h' hr hr' he
  have hm := h.mark_eq h' he
  cases t' with
  | var v' =>
    rw [argText_of_not_fn rfl, argText_of_not_fn rfl, text_var, text_var] at he
    obtain ⟨hP, hw, hfree⟩ := h.var
    obtain ⟨hP', hw', hfree'⟩ := h'.var
    obtain ⟨hname, hr⟩ := hw.split hw' hr hr' he
    have hc := Constraint.eq_free_of_within hfree
    have hc' := Constraint.eq_free_of_within hfree'
    exact ⟨congrArg var (hagree v v' hP hP' hname (iff_of_true hc hc')), hr⟩
  | rowEmpty => exact h'.kind.elim
  | rowExtend l f t => exact h'.kind.elim
  | _ => cases hm

theorem rowReads_var {v : TyVar} (h : (var v).Legible P (.lacks .empty)) :
    (var v).RowReads P' := by
  intro t' r r' h' hr hr' he
  obtain ⟨hP, hw, hlacks⟩ := h.var
  rw [rowText_var] at he
  cases t' with
  | var v' =>
    obtain ⟨hP', hw', hlacks'⟩ := h'.var
    simp only [rowText_var, List.cons_append, List.cons.injEq, true_and] at he
    obtain ⟨hname, hr⟩ := hw.split hw' hr.stops hr'.stops he
    have hc : v.constraint ≠ .free := by
      rw [Constraint.eq_lacks_of_within hlacks]
      exact Constraint.noConfusion
    have hc' : v'.constraint ≠ .free := by
      rw [Constraint.eq_lacks_of_within hlacks']
      exact Constraint.noConfusion
    exact ⟨congrArg var (hagree v v' hP hP' hname (iff_of_false hc hc')), hr⟩
  | rowEmpty =>
    rw [rowText_rowEmpty, List.nil_append] at he
    exact absurd he.symm (hr'.ne_cons (by decide) (by decide))
  | rowExtend l f t =>
    rw [rowText_rowExtend, List.append_assoc] at he
    exact absurd he.symm (h'.rowExtend.1.append_ne_cons rfl)
  | _ => exact h'.kind.elim

end Agree

theorem rowReads_rowEmpty : rowEmpty.RowReads P' := by
  intro t' r r' h' hr hr' he
  rw [rowText_rowEmpty, List.nil_append] at he
  cases t' with
  | var v' =>
    rw [rowText_var] at he
    exact absurd he (hr.ne_cons (by decide) (by decide))
  | rowEmpty => exact ⟨rfl, he⟩
  | rowExtend l f t =>
    rw [rowText_rowExtend, List.append_assoc] at he
    exact absurd he (hr.ne_word h'.rowExtend.1)
  | _ => exact h'.kind.elim

/-- What follows a field tells how the row goes on. -/
theorem rowText_eq_of_tailText {t t' : Ty} (h : t.Legible P (.lacks .empty))
    (h' : t'.Legible P' (.lacks .empty)) {r r' : List Char} (hr : EndsRow r) (hr' : EndsRow r')
    (he : t.tailText ++ r = t'.tailText ++ r') : t.rowText ++ r = t'.rowText ++ r' := by
  cases t with
  | var v =>
    rw [tailText_var] at he
    cases t' with
    | var v' => simpa using he
    | rowEmpty =>
      rw [tailText_rowEmpty, List.nil_append] at he
      exact absurd he.symm (hr'.ne_cons (by decide) (by decide))
    | rowExtend l' f' u' => simp [tailText_rowExtend] at he
    | _ => exact h'.kind.elim
  | rowEmpty =>
    rw [tailText_rowEmpty, List.nil_append] at he
    cases t' with
    | var v' =>
      rw [tailText_var] at he
      exact absurd he (hr.ne_cons (by decide) (by decide))
    | rowEmpty => exact he
    | rowExtend l' f' u' =>
      rw [tailText_rowExtend] at he
      exact absurd he (hr.ne_cons (by decide) (by decide))
    | _ => exact h'.kind.elim
  | rowExtend l f u =>
    rw [tailText_rowExtend] at he
    cases t' with
    | var v' => simp at he
    | rowEmpty =>
      rw [tailText_rowEmpty, List.nil_append] at he
      exact absurd he.symm (hr'.ne_cons (by decide) (by decide))
    | rowExtend l' f' u' =>
      rw [tailText_rowExtend] at he
      simpa using he
    | _ => exact h'.kind.elim
  | _ => exact h.kind.elim

theorem rowReads_rowExtend {l : String} {f u : Ty}
    (h : (rowExtend l f u).Legible P (.lacks .empty)) (hf : f.TypeReads P') (hu : u.RowReads P') :
    (rowExtend l f u).RowReads P' := by
  intro t' r r' h' hr hr' he
  obtain ⟨hl, hlf, hlu⟩ := h.rowExtend
  rw [rowText_rowExtend, List.append_assoc] at he
  cases t' with
  | var v' =>
    rw [rowText_var] at he
    exact absurd he (hl.append_ne_cons rfl)
  | rowEmpty =>
    rw [rowText_rowEmpty, List.nil_append] at he
    exact absurd he.symm (hr'.ne_word hl)
  | rowExtend l' f' u' =>
    obtain ⟨hl', hlf', hlu'⟩ := h'.rowExtend
    simp only [rowText_rowExtend, List.append_assoc, List.cons_append] at he
    obtain ⟨rfl, hrest⟩ := hl.split hl' (stops_cons.2 rfl) (stops_cons.2 rfl) he
    simp only [List.cons.injEq, true_and] at hrest
    obtain ⟨rfl, htail⟩ := hf hlf' (hlu.endsType_tail hr) (hlu'.endsType_tail hr') hrest
    obtain ⟨rfl, hr⟩ := hu hlu' hr hr' (rowText_eq_of_tailText hlu hlu' hr hr' htail)
    exact ⟨rfl, hr⟩
  | _ => exact h'.kind.elim

/-- A row on its own stands in angle brackets, unless it is a variable. -/
theorem Legible.text_row {t : Ty} (h : t.Legible P (.lacks .empty)) :
    (∃ v, t = .var v) ∨ t.text = '<' :: (t.rowText ++ ['>']) := by
  cases t with
  | var v => exact .inl ⟨v, rfl⟩
  | rowEmpty => exact .inr (by simp)
  | rowExtend l f u => exact .inr (text_rowExtend l f u)
  | _ => exact h.kind.elim

theorem rowText_eq_of_text {t t' : Ty} (h : t.Legible P (.lacks .empty))
    (h' : t'.Legible P' (.lacks .empty)) (he : t.text = t'.text) : t.rowText = t'.rowText := by
  rcases h.text_row with ⟨v, rfl⟩ | ht
  · rcases h'.text_row with ⟨v', rfl⟩ | ht'
    · rw [text_var, text_var] at he
      rw [rowText_var, rowText_var, he]
    · rw [text_var, ht'] at he
      exact absurd he (h.var.2.1.ne_cons rfl)
  · rcases h'.text_row with ⟨v', rfl⟩ | ht'
    · rw [text_var, ht] at he
      exact absurd he.symm (h'.var.2.1.ne_cons rfl)
    · rw [ht, ht', List.cons.injEq] at he
      exact List.append_cancel_right he.2

section Agree

variable (hagree : ∀ v v', P v → P' v' → v.name = v'.name →
  (v.constraint = .free ↔ v'.constraint = .free) → v = v')

include hagree

theorem reads (t : Ty) : (t.Legible P .free → t.ArgReads P' ∧ t.TypeReads P') ∧
    (t.Legible P (.lacks .empty) → t.RowReads P') := by
  -- Outside functions, a type is read as it is read as an argument.
  have hboth : ∀ {t : Ty}, t.isFn = false → t.ArgReads P' → t.ArgReads P' ∧ t.TypeReads P' :=
    fun ht h => ⟨h, h.typeReads ht⟩
  induction t with
  | var v => exact ⟨fun h => hboth rfl (argReads_var hagree h), rowReads_var hagree⟩
  | int => exact ⟨fun h => hboth rfl (argReads_base h (.inl rfl)), fun h => h.kind.elim⟩
  | bool => exact ⟨fun h => hboth rfl (argReads_base h (.inr rfl)), fun h => h.kind.elim⟩
  | fn a b iha ihb =>
    refine ⟨fun h => ?_, fun h => h.kind.elim⟩
    have hfn := typeReads_fn (iha.1 h.fn.1).1 (ihb.1 h.fn.2).2
    exact ⟨argReads_fn h hfn, hfn⟩
  | record r ih =>
    exact ⟨fun h => hboth rfl (argReads_record h (ih.2 h.record)), fun h => h.kind.elim⟩
  | rowEmpty => exact ⟨fun h => h.kind.elim, fun _ => rowReads_rowEmpty⟩
  | rowExtend l f u ihf ihu =>
    refine ⟨fun h => h.kind.elim, fun h => ?_⟩
    obtain ⟨-, hf, hu⟩ := h.rowExtend
    exact rowReads_rowExtend h (ihf.1 hf).2 (ihu.2 hu)

/-- Types of one kind that have one text are the same. -/
theorem eq_of_text {c : Constraint} {t t' : Ty} (h : t.Legible P c) (h' : t'.Legible P' c)
    (he : t.text = t'.text) : t = t' := by
  cases c with
  | free =>
    refine (((reads hagree t).1 h).2 h' endsType_nil endsType_nil ?_).1
    rw [he]
  | lacks ls =>
    replace h : t.Legible P (.lacks .empty) := ⟨h.kind.row, h.spelled, h.vars⟩
    replace h' : t'.Legible P' (.lacks .empty) := ⟨h'.kind.row, h'.spelled, h'.vars⟩
    refine ((reads hagree t).2 h h' (endsRow_angle []) (endsRow_angle []) ?_).1
    rw [rowText_eq_of_text h h' he]

end Agree

end Reads

end Ty

/-! ## Schemes -/

namespace Ty

/-- The text of a type shows no constraint. -/
theorem Spelled.backslash_not_mem {t : Ty} (h : t.Spelled) :
    '\\' ∉ t.text ∧ '\\' ∉ t.rowText ∧ '\\' ∉ t.tailText := by
  have harg : ∀ {t : Ty}, '\\' ∉ t.text → '\\' ∉ t.argText := by
    intro t ht
    rw [argText]
    split
    · simpa using ht
    · exact ht
  have hrow : ∀ {t : Ty}, t.isRow = false → '\\' ∉ t.rowText ∧ '\\' ∉ t.tailText := by
    intro t ht
    obtain ⟨hr, htl⟩ := rowText_of_not_row ht
    simp [hr, htl]
  induction t with
  | var v =>
    have hname : '\\' ∉ v.name.toList := h.1.not_mem rfl
    simp [hname]
  | int => exact ⟨by simp, hrow rfl⟩
  | bool => exact ⟨by simp, hrow rfl⟩
  | rowEmpty => simp
  | fn a r iha ihr =>
    have ha := harg (iha h.1).1
    have hr := (ihr h.2).1
    exact ⟨by simp [ha, hr], hrow rfl⟩
  | record r ih =>
    have hr := (ih h).2.1
    exact ⟨by simp [hr], hrow rfl⟩
  | rowExtend l f t ihf iht =>
    have hl : '\\' ∉ l.toList := h.1.not_mem rfl
    have hf := (ihf h.2.1).1
    have ht := (iht h.2.2).2.2
    simp [hl, hf, ht, tailText_rowExtend]

/-- A type without variables does not start with a word. -/
theorem exists_head_of_closed {t : Ty} (h : ∀ v, v ∉ t.freeVars) :
    ∃ c cs, t.text = c :: cs ∧ c.isLower = false := by
  induction t with
  | var v => exact absurd (mem_freeVars_var.2 rfl) (h v)
  | int => exact ⟨_, _, text_int, rfl⟩
  | bool => exact ⟨_, _, text_bool, rfl⟩
  | record r => exact ⟨_, _, text_record r, rfl⟩
  | rowEmpty => exact ⟨_, _, text_rowEmpty, rfl⟩
  | rowExtend l f t => exact ⟨_, _, text_rowExtend l f t, rfl⟩
  | fn a r iha =>
    rw [text_fn, argText]
    split
    · exact ⟨'(', _, rfl, rfl⟩
    · obtain ⟨c, cs, ha, hc⟩ := iha fun v hv => h v (mem_freeVars_fn.2 (.inl hv))
      rw [ha]
      exact ⟨c, _, rfl, hc⟩

end Ty

namespace TyVar

/-- How the constraint of a quantified variable is written. -/
def constraintText (v : TyVar) : String := v.name ++ "\\" ++ v.constraint.render

theorem toList_constraintText (v : TyVar) : v.constraintText.toList =
    v.name.toList ++ '\\' :: ['\\'].intercalate (v.labels.toList.map String.toList) := by
  simp [constraintText, Constraint.render, labels]

theorem Spelled.mem_constraintText {v : TyVar} (h : v.Spelled) {c : Char}
    (hc : c ∈ v.constraintText.toList) : isWordChar c = true ∨ c = '\\' := by
  rw [toList_constraintText, List.mem_append, List.mem_cons] at hc
  rcases hc with hc | hc | hc
  · exact .inl (h.1.isWordChar_of_mem hc)
  · exact .inr hc
  · rcases mem_intercalate hc with hc | ⟨x, hx, hc⟩
    · exact .inr (List.mem_singleton.1 hc)
    · obtain ⟨l, hl, rfl⟩ := List.mem_map.1 hx
      exact .inl ((h.2 l hl).isWordChar_of_mem hc)

/-- A constraint that is written can be read back. -/
theorem Spelled.constraintText_inj {v w : TyVar} (hv : v.Spelled) (hw : w.Spelled)
    (hlv : v.labels.toList ≠ []) (hlw : w.labels.toList ≠ [])
    (h : v.constraintText = w.constraintText) : v.name = w.name ∧ v.labels = w.labels := by
  have hl := congrArg String.toList h
  rw [toList_constraintText, toList_constraintText] at hl
  obtain ⟨hname, hls⟩ := split_at (hv.1.not_mem rfl) (hw.1.not_mem rfl) hl
  have hword : ∀ {u : TyVar}, u.Spelled → ∀ x ∈ u.labels.toList.map String.toList, '\\' ∉ x := by
    intro u hu x hx
    obtain ⟨l, hl, rfl⟩ := List.mem_map.1 hx
    exact (hu.2 l hl).not_mem rfl
  have hlabels := intercalate_inj (hword hv) (hword hw) (by simpa using hlv) (by simpa using hlw) hls
  have hlist := (List.map_inj_right fun _ _ => String.toList_injective).1 hlabels
  refine ⟨String.toList_injective hname, OrdSet.ext fun l => ?_⟩
  rw [← OrdSet.mem_toList, hlist, OrdSet.mem_toList]

/-- Variables of one sort with one name and the same labels are the same. -/
theorem eq_of_labels {v v' : TyVar} (hname : v.name = v'.name)
    (hsort : v.constraint = .free ↔ v'.constraint = .free) (hl : v.labels = v'.labels) :
    v = v' := by
  obtain ⟨x, c⟩ := v
  obtain ⟨x', c'⟩ := v'
  obtain rfl : x = x' := hname
  cases c with
  | free =>
    obtain rfl : c' = .free := hsort.1 rfl
    rfl
  | lacks ls =>
    cases c' with
    | free => cases hsort.2 rfl
    | lacks ls' => exact congrArg (fun ls => TyVar.mk x (.lacks ls)) hl

end TyVar

namespace Scheme

theorem mem_constraintTexts {σ : Scheme} {x : String} :
    x ∈ σ.constraintTexts ↔ ∃ v ∈ σ.vars, v.labels.toList ≠ [] ∧ v.constraintText = x := by
  simp [constraintTexts, TyVar.constraintText, OrdSet.isEmpty, and_assoc]

/-- The characters between the names of the quantified variables and the body. -/
def constraintPart (σ : Scheme) : List Char :=
  if σ.constraintTexts.isEmpty then []
  else '(' :: ([',', ' '].intercalate (σ.constraintTexts.map String.toList) ++
    [')', ' ', '=', '>', ' '])

theorem toList_render_of_nil {σ : Scheme} (h : σ.vars = []) : σ.render.toList = σ.body.text := by
  rw [render, if_pos (by simp [h]), Ty.text]

theorem toList_render {σ : Scheme} (h : σ.vars ≠ []) : σ.render.toList =
    "forall ".toList ++ ([' '].intercalate (σ.vars.map fun v => v.name.toList) ++
      '.' :: ' ' :: (σ.constraintPart ++ σ.body.text)) := by
  rw [render, if_neg (by simpa using h), constraintPart]
  split <;> simp [Ty.text, Function.comp_def]

section Spelled

variable {σ σ' : Scheme} (hσ : ∀ v ∈ σ.vars, v.Spelled) (hσ' : ∀ v ∈ σ'.vars, v.Spelled)

include hσ in
/-- The characters of constraints are those of words, and the backslash. -/
theorem mem_of_mem_constraintTexts {x : List Char} (hx : x ∈ σ.constraintTexts.map String.toList)
    {c : Char} (hc : c ∈ x) : isWordChar c = true ∨ c = '\\' := by
  obtain ⟨y, hy, rfl⟩ := List.mem_map.1 hx
  obtain ⟨v, hv, -, rfl⟩ := mem_constraintTexts.1 hy
  exact (hσ v hv).mem_constraintText hc

include hσ in
theorem paren_not_mem_constraints :
    ')' ∉ [',', ' '].intercalate (σ.constraintTexts.map String.toList) := by
  intro hm
  rcases mem_intercalate hm with hm | ⟨x, hx, hc⟩
  · exact absurd hm (by decide)
  · exact absurd (mem_of_mem_constraintTexts hσ hx hc) (by decide)

theorem backslash_mem_constraintPart (h : σ.constraintTexts ≠ []) : '\\' ∈ σ.constraintPart := by
  rw [constraintPart, if_neg (by simpa using h)]
  obtain ⟨x, hx⟩ := List.exists_mem_of_ne_nil _ h
  obtain ⟨v, -, -, rfl⟩ := mem_constraintTexts.1 hx
  refine List.mem_cons_of_mem _ (List.mem_append_left _ ?_)
  refine mem_intercalate_of_mem (List.mem_map_of_mem hx) ?_
  rw [TyVar.toList_constraintText]
  simp

include hσ hσ' in
/-- The constraints can be told from the body, which has no backslash. -/
theorem constraintPart_split {r r' : List Char} (hr : '\\' ∉ r) (hr' : '\\' ∉ r')
    (h : σ.constraintPart ++ r = σ'.constraintPart ++ r') :
    σ.constraintTexts = σ'.constraintTexts ∧ r = r' := by
  have hempty : ∀ {σ : Scheme}, σ.constraintTexts = [] → σ.constraintPart = [] := by
    intro σ h
    simp [constraintPart, h]
  by_cases hne : σ.constraintTexts = []
  · by_cases hne' : σ'.constraintTexts = []
    · rw [hempty hne, hempty hne'] at h
      exact ⟨hne.trans hne'.symm, h⟩
    · rw [hempty hne, List.nil_append] at h
      exact absurd (h ▸ List.mem_append_left _ (backslash_mem_constraintPart hne')) hr
  · by_cases hne' : σ'.constraintTexts = []
    · rw [hempty hne', List.nil_append] at h
      exact absurd (h ▸ List.mem_append_left _ (backslash_mem_constraintPart hne)) hr'
    · rw [constraintPart, constraintPart, if_neg (by simpa using hne),
        if_neg (by simpa using hne')] at h
      simp only [List.cons_append, List.append_assoc, List.cons.injEq, true_and,
        List.nil_append] at h
      obtain ⟨htexts, hrest⟩ :=
        split_at (paren_not_mem_constraints hσ) (paren_not_mem_constraints hσ') h
      have hcomma : ∀ {σ : Scheme}, (∀ v ∈ σ.vars, v.Spelled) →
          ∀ x ∈ σ.constraintTexts.map String.toList, ',' ∉ x := fun hσ x hx hc =>
        absurd (mem_of_mem_constraintTexts hσ hx hc) (by decide)
      have hlists := intercalate_inj (hcomma hσ) (hcomma hσ') (by simpa using hne)
        (by simpa using hne') htexts
      simp only [List.cons.injEq, true_and] at hrest
      exact ⟨(List.map_inj_right fun _ _ => String.toList_injective).1 hlists, hrest⟩

/-- A scheme that quantifies nothing starts with its body, and a body without variables does not
start with a word. -/
theorem render_ne_of_vars (hc : ∀ v ∈ σ.body.freeVars, v ∈ σ.vars) (hnil : σ.vars = [])
    (hne : σ'.vars ≠ []) : σ.render ≠ σ'.render := by
  intro h
  have hclosed : ∀ v, v ∉ σ.body.freeVars := by
    intro v hv
    have hmem := hc v hv
    rw [hnil] at hmem
    cases hmem
  obtain ⟨c, cs, htext, hlower⟩ := Ty.exists_head_of_closed hclosed
  have hl := congrArg String.toList h
  rw [toList_render hne, toList_render_of_nil hnil, htext] at hl
  obtain ⟨rfl, -⟩ := List.cons.inj hl
  cases hlower

include hσ hσ' in
/-- Texts of schemes that quantify all their variables agree in the constraints and in the body. -/
theorem render_split (hb : σ.body.Spelled) (hb' : σ'.body.Spelled)
    (hc : ∀ v ∈ σ.body.freeVars, v ∈ σ.vars) (hc' : ∀ v ∈ σ'.body.freeVars, v ∈ σ'.vars)
    (h : σ.render = σ'.render) :
    σ.constraintTexts = σ'.constraintTexts ∧ σ.body.text = σ'.body.text := by
  have hdot : ∀ {σ : Scheme}, (∀ v ∈ σ.vars, v.Spelled) →
      '.' ∉ [' '].intercalate (σ.vars.map fun v => v.name.toList) := by
    intro σ hσ hm
    rcases mem_intercalate hm with hm | ⟨x, hx, hc⟩
    · exact absurd hm (by decide)
    · obtain ⟨v, hv, rfl⟩ := List.mem_map.1 hx
      exact (hσ v hv).1.not_mem rfl hc
  have hl := congrArg String.toList h
  by_cases hnil : σ.vars = []
  · by_cases hnil' : σ'.vars = []
    · rw [toList_render_of_nil hnil, toList_render_of_nil hnil'] at hl
      exact ⟨by simp [constraintTexts, hnil, hnil'], hl⟩
    · exact absurd h (render_ne_of_vars hc hnil hnil')
  · by_cases hnil' : σ'.vars = []
    · exact absurd h.symm (render_ne_of_vars hc' hnil' hnil)
    · rw [toList_render hnil, toList_render hnil'] at hl
      obtain ⟨-, hrest⟩ := split_at (hdot hσ) (hdot hσ') (List.append_cancel_left hl)
      exact constraintPart_split hσ hσ' hb.backslash_not_mem.1 hb'.backslash_not_mem.1
        (List.cons.inj hrest).2

include hσ hσ' in
/-- A variable that lacks labels is named among the constraints, so the variable of that name in the
other scheme lacks them too. -/
theorem labels_eq_of_constraintTexts
    (hapart : ∀ u ∈ σ'.vars, ∀ v ∈ σ'.vars, u.name = v.name → u = v)
    (htexts : σ.constraintTexts = σ'.constraintTexts) {v v' : TyVar} (hv : v ∈ σ.vars)
    (hv' : v' ∈ σ'.vars) (hname : v.name = v'.name) (hl : v.labels.toList ≠ []) :
    v.labels = v'.labels := by
  have hx : v.constraintText ∈ σ'.constraintTexts := htexts ▸ mem_constraintTexts.2 ⟨v, hv, hl, rfl⟩
  obtain ⟨w, hw, hlw, hwv⟩ := mem_constraintTexts.1 hx
  obtain ⟨hnw, hlabels⟩ := (hσ' w hw).constraintText_inj (hσ v hv) hlw hl hwv
  rw [← hapart w hw v' hv' (hnw.trans hname), hlabels]

include hσ hσ' in
theorem vars_agree (hapart : ∀ u ∈ σ.vars, ∀ v ∈ σ.vars, u.name = v.name → u = v)
    (hapart' : ∀ u ∈ σ'.vars, ∀ v ∈ σ'.vars, u.name = v.name → u = v)
    (htexts : σ.constraintTexts = σ'.constraintTexts) {v v' : TyVar} (hv : v ∈ σ.vars)
    (hv' : v' ∈ σ'.vars) (hname : v.name = v'.name)
    (hsort : v.constraint = .free ↔ v'.constraint = .free) : v = v' := by
  apply TyVar.eq_of_labels hname hsort
  by_cases hl : v.labels.toList = []
  · by_cases hl' : v'.labels.toList = []
    · refine OrdSet.ext fun l => ?_
      rw [← OrdSet.mem_toList, hl, ← hl', OrdSet.mem_toList]
    · exact (labels_eq_of_constraintTexts hσ' hσ hapart htexts.symm hv' hv hname.symm hl').symm
  · exact labels_eq_of_constraintTexts hσ hσ' hapart' htexts hv hv' hname hl

end Spelled

end Scheme

theorem Env.mem_generalize_empty {t : Ty} {v : TyVar} :
    v ∈ (Env.generalize .empty t).vars ↔ v ∈ t.freeVars := by
  rw [mem_generalize_vars]
  exact and_iff_left (OrdSet.not_mem_empty v)

/-- Of two types, or of two rows, only equal ones have schemes with one text. (A type variable and a
row variable that lacks no label are written alike.) -/
theorem Ty.render_generalize_eq_iff (c : Constraint) (t t' : Ty) (hk : t.HasKind c)
    (hk' : t'.HasKind c) (hs : t.Spelled) (hs' : t'.Spelled) (ha : t.NamesApart)
    (ha' : t'.NamesApart) :
    (Env.generalize .empty t).render = (Env.generalize .empty t').render ↔ t = t' := by
  refine ⟨fun h => ?_, fun h => h ▸ rfl⟩
  have hvars : ∀ {t : Ty}, t.Spelled → ∀ v ∈ (Env.generalize .empty t).vars, v.Spelled :=
    fun hs v hv => hs.of_mem_freeVars (Env.mem_generalize_empty.1 hv)
  have hapart : ∀ {t : Ty}, t.NamesApart → ∀ u ∈ (Env.generalize .empty t).vars,
      ∀ v ∈ (Env.generalize .empty t).vars, u.name = v.name → u = v := by
    intro t ha u hu v hv
    rw [Env.mem_generalize_empty, ← OrdSet.mem_toList] at hu hv
    exact ha u hu v hv
  obtain ⟨htexts, hbody⟩ := Scheme.render_split (hvars hs) (hvars hs') hs hs'
    (fun _ => Env.mem_generalize_empty.2) (fun _ => Env.mem_generalize_empty.2) h
  have hread : t.Legible (· ∈ t.freeVars) c := ⟨hk, hs, fun _ hv => hv⟩
  have hread' : t'.Legible (· ∈ t'.freeVars) c := ⟨hk', hs', fun _ hv => hv⟩
  refine Ty.eq_of_text ?_ hread hread' hbody
  intro v v' hv hv' hname hsort
  exact Scheme.vars_agree (hvars hs) (hvars hs') (hapart ha) (hapart ha') htexts
    (Env.mem_generalize_empty.2 hv) (Env.mem_generalize_empty.2 hv') hname hsort

/-- The type of a function that reads a field of what its argument yields. -/
def readsResult (lacked : Labels) : Ty :=
  .fn (.fn .int (.record (.rowExtend "x" (.var ⟨"a", .free⟩) (.var ⟨"r", .lacks lacked⟩))))
    (.var ⟨"a", .free⟩)

theorem render_generalize_readsResult :
    (readsResult (.singleton "x")).HasKind .free ∧
      (readsResult (.ofList ["x", "y"])).HasKind .free ∧
      (readsResult (.singleton "x")).Spelled ∧ (readsResult (.ofList ["x", "y"])).Spelled ∧
      (readsResult (.singleton "x")).NamesApart ∧ (readsResult (.ofList ["x", "y"])).NamesApart ∧
      (readsResult (.singleton "x")).render = (readsResult (.ofList ["x", "y"])).render ∧
      (Env.generalize .empty (readsResult (.singleton "x"))).render ≠
        (Env.generalize .empty (readsResult (.ofList ["x", "y"]))).render := by
  have hk : (readsResult (.singleton "x")).HasKind .free := by decide +kernel
  have hk' : (readsResult (.ofList ["x", "y"])).HasKind .free := by decide +kernel
  have hs : (readsResult (.singleton "x")).Spelled := by decide +kernel
  have hs' : (readsResult (.ofList ["x", "y"])).Spelled := by decide +kernel
  have ha : (readsResult (.singleton "x")).NamesApart := by decide +kernel
  have ha' : (readsResult (.ofList ["x", "y"])).NamesApart := by decide +kernel
  -- without the quantifier the two types are written alike
  have hbare : (readsResult (.singleton "x")).render = (readsResult (.ofList ["x", "y"])).render := by
    simp [readsResult, Ty.render, Ty.renderRow, Ty.renderTail, Ty.isFn]
  refine ⟨hk, hk', hs, hs', ha, ha', hbare, fun h => ?_⟩
  have heq := (Ty.render_generalize_eq_iff .free _ _ hk hk' hs hs' ha ha').1 h
  exact absurd heq (by decide +kernel)

end RowTyping
