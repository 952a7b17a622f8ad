import RowTyping.Expr.Printer
import RowTyping.Proofs.Printing.Words

/-!
# Reading expressions back

Two expressions without holes that have one text are the same, if their names and labels are words
and no variable is called like one of the keywords `let` and `in`.

As with types, a text is read from the left. What follows an argument cannot prolong it (`EndsArg`),
and what follows an expression cannot be a further argument (`EndsExpr`): that is where a variable
called `in` would do harm. Applications nest to the left, so a text shows the head of an application
first and then its arguments one after the other (`Expr.text_apply`). The induction therefore is on
an expression that is applied to any arguments which can be read already (`Expr.reads_apply`).
-/

namespace RowTyping

/-- The primitive is no hole, and its label is a word. -/
def Prim.Spelled : Prim → Prop
  | int _ | bool _ | emptyRecord => True
  | select l | extend l | restrict l => Word l
  | hole => False

instance decidableSpelledPrim : (p : Prim) → Decidable p.Spelled
  | .int _ => .isTrue trivial
  | .bool _ => .isTrue trivial
  | .emptyRecord => .isTrue trivial
  | .select l => inferInstanceAs (Decidable (Word l))
  | .extend l => inferInstanceAs (Decidable (Word l))
  | .restrict l => inferInstanceAs (Decidable (Word l))
  | .hole => .isFalse False.elim

section Equations

variable (l : String)

theorem Prim.toList_render_select :
    (select l).render.toList = '(' :: '_' :: '.' :: (l.toList ++ [')']) := by
  simp [render]

theorem Prim.toList_render_restrict :
    (restrict l).render.toList = '(' :: '_' :: '-' :: (l.toList ++ [')']) := by
  simp [render]

theorem Prim.toList_render_extend :
    (extend l).render.toList = '\x7b' :: (l.toList ++ ['=', '_', '|', '_', '\x7d']) := by
  simp [render]

end Equations

namespace Expr

/-- The expression has no holes, its names and labels are words, and no variable is a keyword. -/
def Spelled : Expr → Prop
  | var x => Word x ∧ x ≠ "let" ∧ x ≠ "in"
  | prim p => p.Spelled
  | app f a => f.Spelled ∧ a.Spelled
  | abs x e => Word x ∧ e.Spelled
  | letIn x e₁ e₂ => Word x ∧ e₁.Spelled ∧ e₂.Spelled
  | hole => False

/-- Spelling can be checked. -/
def decSpelled : (e : Expr) → Decidable e.Spelled
  | var x => inferInstanceAs (Decidable (Word x ∧ x ≠ "let" ∧ x ≠ "in"))
  | prim p => inferInstanceAs (Decidable p.Spelled)
  | app f a => @instDecidableAnd _ _ f.decSpelled a.decSpelled
  | abs x e => @instDecidableAnd (Word x) _ inferInstance e.decSpelled
  | letIn x e₁ e₂ =>
    @instDecidableAnd (Word x) _ inferInstance (@instDecidableAnd _ _ e₁.decSpelled e₂.decSpelled)
  | hole => .isFalse False.elim

instance decidableSpelled (e : Expr) : Decidable e.Spelled := e.decSpelled

/-! ## Texts as lists of characters -/

/-- The characters of an expression. -/
def text (e : Expr) : List Char := e.render.toList

/-- Whether an expression stands in parentheses as an argument. -/
def isCompound (e : Expr) : Bool := e.isApp || e.isOpen

/-- The characters of an argument. -/
def argText (e : Expr) : List Char := if e.isCompound then '(' :: (e.text ++ [')']) else e.text

/-- The characters of arguments that follow a function. -/
def argsText (args : List Expr) : List Char := args.flatMap fun a => ' ' :: a.argText

section Equations

variable (x : String) (p : Prim) (f a e e₁ e₂ : Expr)

@[simp] theorem text_var : (var x).text = x.toList := rfl

@[simp] theorem text_prim : (prim p).text = p.render.toList := rfl

@[simp] theorem text_abs :
    (abs x e).text = '\\' :: (x.toList ++ ' ' :: '-' :: '>' :: ' ' :: e.text) := by
  simp [text, render]

@[simp] theorem text_letIn : (letIn x e₁ e₂).text = 'l' :: 'e' :: 't' :: ' ' ::
    (x.toList ++ ' ' :: '=' :: ' ' :: (e₁.text ++ ' ' :: 'i' :: 'n' :: ' ' :: e₂.text)) := by
  simp [text, render]

theorem argText_of_compound {a : Expr} (h : a.isCompound = true) :
    a.argText = '(' :: (a.text ++ [')']) := by
  rw [argText, if_pos h]

theorem argText_of_not_compound {a : Expr} (h : a.isCompound = false) : a.argText = a.text := by
  rw [argText, if_neg (by simp [h])]

@[simp] theorem argText_var : (var x).argText = x.toList := argText_of_not_compound rfl

@[simp] theorem argText_prim : (prim p).argText = p.render.toList := argText_of_not_compound rfl

/-- The head of an application is written like an argument. -/
theorem text_app_of_not_isApp {f : Expr} (h : f.isApp = false) :
    (app f a).text = f.argText ++ ' ' :: a.argText := by
  rw [text, render, argText, argText, isCompound, isCompound, h, Bool.false_or]
  cases f.isOpen <;> cases (a.isApp || a.isOpen) <;> simp [parenthesize, text]

theorem text_app_of_not_isOpen {f : Expr} (h : f.isOpen = false) :
    (app f a).text = f.text ++ ' ' :: a.argText := by
  rw [text, render, argText, isCompound, h]
  cases (a.isApp || a.isOpen) <;> simp [parenthesize, text]

@[simp] theorem argsText_nil : argsText [] = [] := rfl

@[simp] theorem argsText_cons (args : List Expr) :
    argsText (a :: args) = ' ' :: (a.argText ++ argsText args) := rfl

theorem argsText_append (args args' : List Expr) :
    argsText (args ++ args') = argsText args ++ argsText args' :=
  List.flatMap_append

end Equations

/-- The arguments follow the text of an expression that does not reach over them. -/
theorem text_apply_of_not_isOpen {e : Expr} (h : e.isOpen = false) (args : List Expr) :
    (e.apply args).text = e.text ++ argsText args := by
  induction args generalizing e with
  | nil => simp [apply]
  | cons a args ih =>
    have happ : ((app e a).apply args).text = (app e a).text ++ argsText args := ih rfl
    rw [text_app_of_not_isOpen a h] at happ
    simpa [apply] using happ

theorem text_apply {e : Expr} (h : e.isApp = false) (a : Expr) (args : List Expr) :
    (e.apply (a :: args)).text = e.argText ++ argsText (a :: args) := by
  have happ := text_apply_of_not_isOpen (e := app e a) rfl args
  rw [text_app_of_not_isApp a h] at happ
  simpa [apply] using happ

theorem isApp_of_isOpen {e : Expr} (h : e.isOpen = true) : e.isApp = false := by
  cases e with
  | abs | letIn => rfl
  | var | prim | app | hole => cases h

/-- An expression is a function, a binding, or a head with arguments. -/
theorem Spelled.form {e : Expr} (h : e.Spelled) :
    (∃ x b, e = abs x b) ∨ (∃ x b₁ b₂, e = letIn x b₁ b₂) ∨
      ∃ f args, e = apply f args ∧ f.Spelled ∧ (∀ a ∈ args, a.Spelled) ∧
        e.text = f.argText ++ argsText args := by
  induction e with
  | var x => exact .inr (.inr ⟨var x, [], rfl, h, by simp, by simp⟩)
  | prim p => exact .inr (.inr ⟨prim p, [], rfl, h, by simp, by simp⟩)
  | abs x b => exact .inl ⟨x, b, rfl⟩
  | letIn x b₁ b₂ => exact .inr (.inl ⟨x, b₁, b₂, rfl⟩)
  | hole => exact h.elim
  | app f a ihf =>
    refine .inr (.inr ?_)
    cases hf : f.isOpen with
    | true =>
      have htext := text_app_of_not_isApp a (isApp_of_isOpen hf)
      exact ⟨f, [a], rfl, h.1, by simpa using h.2, by simp [htext]⟩
    | false =>
      rcases ihf h.1 with ⟨x, b, rfl⟩ | ⟨x, b₁, b₂, rfl⟩ | ⟨g, args, rfl, hg, hargs, htext⟩
      · cases hf
      · cases hf
      · refine ⟨g, args ++ [a], by simp [apply], hg, ?_, ?_⟩
        · intro b hb
          rcases List.mem_append.1 hb with hb | hb
          · exact hargs b hb
          · rw [List.mem_singleton.1 hb]
            exact h.2
        · rw [text_app_of_not_isOpen a hf, htext, argsText_append]
          simp

end Expr

/-! ## What may follow -/

/-- What follows an argument: a blank, a closing parenthesis, or nothing. -/
def EndsArg (r : List Char) : Prop := Stops (fun c => c != ' ' && c != ')') r

/-- What follows an expression: a closing parenthesis, the keyword `in`, or nothing. -/
def EndsExpr (r : List Char) : Prop :=
  r = [] ∨ (∃ r', r = ')' :: r') ∨ ∃ r', r = ' ' :: 'i' :: 'n' :: ' ' :: r'

section Ends

variable {r : List Char}

theorem endsArg_blank : EndsArg (' ' :: r) := stops_cons.2 rfl

theorem endsArg_paren : EndsArg (')' :: r) := stops_cons.2 rfl

theorem EndsArg.stops (h : EndsArg r) {p : Char → Bool} (hb : p ' ' = false) (hp : p ')' = false) :
    Stops p r := by
  cases r with
  | nil => exact stops_nil
  | cons c r =>
    unfold EndsArg at h
    rw [stops_cons] at h ⊢
    simp only [Bool.and_eq_false_iff, bne_eq_false_iff_eq] at h
    rcases h with rfl | rfl
    · exact hb
    · exact hp

theorem endsExpr_nil : EndsExpr [] := .inl rfl

theorem endsExpr_paren : EndsExpr (')' :: r) := .inr (.inl ⟨r, rfl⟩)

theorem endsExpr_in : EndsExpr (' ' :: 'i' :: 'n' :: ' ' :: r) := .inr (.inr ⟨r, rfl⟩)

theorem EndsExpr.endsArg (h : EndsExpr r) : EndsArg r := by
  rcases h with rfl | ⟨r', rfl⟩ | ⟨r', rfl⟩
  · exact stops_nil
  · exact endsArg_paren
  · exact endsArg_blank

theorem EndsExpr.endsArg_args (h : EndsExpr r) (args : List Expr) :
    EndsArg (Expr.argsText args ++ r) := by
  cases args with
  | nil => exact h.endsArg
  | cons a args => exact endsArg_blank

end Ends

/-! ## The first character of an argument -/

/-- The characters of an integer. -/
def isNumeral (c : Char) : Bool := c.isDigit || c == '-'

theorem toList_toString_negSucc (m : Nat) :
    (toString (Int.negSucc m)).toList = '-' :: (m + 1).repr.toList :=
  String.toList_append

theorem isNumeral_of_mem {n : Int} {c : Char} (h : c ∈ (toString n).toList) :
    isNumeral c = true := by
  have hdigit : ∀ {k : Nat}, c ∈ k.repr.toList → isNumeral c = true := by
    intro k hc
    rw [Nat.toList_repr] at hc
    rw [isNumeral, Nat.isDigit_of_mem_toDigits (by decide) (by decide) hc, Bool.true_or]
  cases n with
  | ofNat k => exact hdigit h
  | negSucc m =>
    rw [toList_toString_negSucc, List.mem_cons] at h
    rcases h with rfl | h
    · rfl
    · exact hdigit h

theorem digits_ne_minus (k : Nat) (r : List Char) : k.repr.toList ≠ '-' :: r := by
  intro h
  have hmem : '-' ∈ Nat.toDigits 10 k := by
    rw [← Nat.toList_repr, h]
    exact List.mem_cons_self
  exact absurd (Nat.isDigit_of_mem_toDigits (by decide) (by decide) hmem) (by decide)

/-- An integer can be read off its text: only a negative one starts with a sign. -/
theorem numeral_unique {n n' : Int} (h : (toString n).toList = (toString n').toList) : n = n' := by
  cases n with
  | ofNat k =>
    cases n' with
    | ofNat k' => exact congrArg Int.ofNat (digits_unique h)
    | negSucc m' => exact absurd (h.trans (toList_toString_negSucc m')) (digits_ne_minus k _)
  | negSucc m =>
    cases n' with
    | ofNat k' => exact absurd (h.symm.trans (toList_toString_negSucc m)) (digits_ne_minus k' _)
    | negSucc m' =>
      rw [toList_toString_negSucc, toList_toString_negSucc] at h
      rw [Nat.succ.inj (digits_unique (List.cons.inj h).2)]

theorem toList_toString_int_ne_nil (n : Int) : (toString n).toList ≠ [] := by
  rw [Int.toString_eq_repr, Int.repr_eq_if]
  split
  · rw [Nat.toList_repr]
    exact Nat.toDigits_ne_nil
  · simp

theorem isNumeral_of_isLower {c : Char} (h : c.isLower = true) : isNumeral c = false := by
  have hge : 'a'.val ≤ c.val := of_decide_eq_true (Bool.and_eq_true_iff.1 h).1
  have hlow : 97 ≤ c.val.toNat := UInt32.le_iff_toNat_le.1 hge
  simp only [isNumeral, Char.isDigit, Bool.or_eq_false_iff, Bool.and_eq_false_iff,
    decide_eq_false_iff_not, beq_eq_false_iff_ne]
  constructor
  · right
    intro hle
    have hhigh : c.val.toNat ≤ 57 := UInt32.le_iff_toNat_le.1 hle
    omega
  · rintro rfl
    exact absurd hlow (by decide)

/-- What the first character of an argument tells about it. -/
inductive Lead where
  | word
  | number
  | truth
  | paren
  | brace
  | other

/-- What a first character tells. -/
def Lead.of (c : Char) : Lead :=
  if c.isLower then word
  else if isNumeral c then number
  else if c = 'T' ∨ c = 'F' then truth
  else if c = '(' then paren
  else if c = '\x7b' then brace
  else other

theorem Lead.of_numeral {c : Char} (h : isNumeral c = true) : of c = number := by
  have hlower : c.isLower = false := by
    cases hl : c.isLower with
    | false => rfl
    | true =>
      rw [isNumeral_of_isLower hl] at h
      cases h
  simp [of, hlower, h]

namespace Expr

/-- How an argument starts. -/
def lead : Expr → Lead
  | var _ => .word
  | prim (.int _) => .number
  | prim (.bool _) => .truth
  | prim (.extend _) | prim .emptyRecord => .brace
  | _ => .paren

theorem lead_of_compound {a : Expr} (h : a.isCompound = true) : a.lead = .paren := by
  cases a with
  | var | prim | hole => cases h
  | app | abs | letIn => rfl

theorem Spelled.exists_lead {a : Expr} (h : a.Spelled) :
    ∃ c cs, a.argText = c :: cs ∧ Lead.of c = a.lead := by
  cases hc : a.isCompound with
  | true => exact ⟨'(', _, argText_of_compound hc, (lead_of_compound hc).symm⟩
  | false =>
    cases a with
    | app | abs | letIn => cases hc
    | hole => exact h.elim
    | var x =>
      obtain ⟨c, cs, hx, hlower⟩ := h.1.exists_cons
      exact ⟨c, cs, by rw [argText_var, hx], by rw [Lead.of, if_pos hlower]; rfl⟩
    | prim p =>
      rw [argText_prim]
      cases p with
      | int n =>
        obtain ⟨c, cs, hn⟩ := List.exists_cons_of_ne_nil (toList_toString_int_ne_nil n)
        exact ⟨c, cs, hn, Lead.of_numeral (isNumeral_of_mem (hn ▸ List.mem_cons_self))⟩
      | bool b => cases b <;> exact ⟨_, _, rfl, rfl⟩
      | select l => exact ⟨_, _, Prim.toList_render_select l, rfl⟩
      | extend l => exact ⟨_, _, Prim.toList_render_extend l, rfl⟩
      | restrict l => exact ⟨_, _, Prim.toList_render_restrict l, rfl⟩
      | emptyRecord => exact ⟨_, _, rfl, rfl⟩
      | hole => exact h.elim

/-- Arguments whose texts start alike are of one sort. -/
theorem Spelled.lead_eq {a a' : Expr} (h : a.Spelled) (h' : a'.Spelled) {r r' : List Char}
    (he : a.argText ++ r = a'.argText ++ r') : a.lead = a'.lead := by
  obtain ⟨c, cs, htext, hc⟩ := h.exists_lead
  obtain ⟨c', cs', htext', hc'⟩ := h'.exists_lead
  rw [htext, htext'] at he
  obtain ⟨rfl, -⟩ := List.cons.inj he
  rw [← hc, hc']

theorem Spelled.argText_ne_cons {a : Expr} (h : a.Spelled) {c : Char} (hc : Lead.of c = .other)
    {r r' : List Char} : a.argText ++ r ≠ c :: r' := by
  obtain ⟨d, cs, htext, hd⟩ := h.exists_lead
  rw [htext]
  intro he
  obtain ⟨rfl, -⟩ := List.cons.inj he
  rw [hc] at hd
  unfold lead at hd
  split at hd <;> cases hd

/-- A text that starts with a word and goes on with a stop starts with that variable. -/
theorem Spelled.eq_var {a : Expr} (h : a.Spelled) {x : String} (hx : Word x) {r r' : List Char}
    (hr : EndsArg r) (hr' : EndsArg r') (he : a.argText ++ r = x.toList ++ r') :
    a = var x ∧ r = r' := by
  obtain ⟨c, cs, htext, hc⟩ := h.exists_lead
  obtain ⟨c', cs', hx', hlower⟩ := hx.exists_cons
  have hlead : a.lead = .word := by
    rw [htext, hx'] at he
    obtain ⟨rfl, -⟩ := List.cons.inj he
    rw [← hc, Lead.of, if_pos hlower]
  cases a with
  | var y =>
    rw [argText_var] at he
    obtain ⟨rfl, hrr⟩ := h.1.split hx (hr.stops rfl rfl) (hr'.stops rfl rfl) he
    exact ⟨rfl, hrr⟩
  | prim p => cases p <;> cases hlead
  | app | abs | letIn | hole => cases hlead

/-- No argument is a keyword. -/
theorem Spelled.argText_ne_keyword {a : Expr} (h : a.Spelled) {k : String}
    (hk : k = "let" ∨ k = "in") {r r' : List Char} (hr : EndsArg r) :
    a.argText ++ r ≠ k.toList ++ ' ' :: r' := by
  intro he
  have hword : Word k := by rcases hk with rfl | rfl <;> decide
  obtain ⟨rfl, -⟩ := h.eq_var hword hr endsArg_blank he
  rcases hk with rfl | rfl
  · exact h.2.1 rfl
  · exact h.2.2 rfl

/-- What stands in parentheses tells a selection or a removal from an expression. -/
theorem Spelled.text_ne_underscore {e : Expr} (h : e.Spelled) {r r' : List Char} :
    e.text ++ r ≠ '_' :: r' := by
  intro he
  rcases h.form with ⟨x, b, rfl⟩ | ⟨x, b₁, b₂, rfl⟩ | ⟨f, args, -, hf, -, htext⟩
  · simp at he
  · simp at he
  · rw [htext, List.append_assoc] at he
    exact hf.argText_ne_cons rfl he

/-! ## Arguments -/

/-- As an argument, the expression is the only one that a text can start with. -/
def ArgReads (a : Expr) : Prop :=
  ∀ ⦃a' : Expr⦄ ⦃r r' : List Char⦄, a'.Spelled → EndsArg r → EndsArg r' →
    a.argText ++ r = a'.argText ++ r' → a = a' ∧ r = r'

/-- The expression is the only one that a text can start with, if no argument follows. -/
def Reads (e : Expr) : Prop :=
  ∀ ⦃e' : Expr⦄ ⦃r r' : List Char⦄, e'.Spelled → EndsExpr r → EndsExpr r' →
    e.text ++ r = e'.text ++ r' → e = e' ∧ r = r'

/-- What stands in parentheses is no selection and no removal. -/
theorem Spelled.argText_ne_compound {a b : Expr} (ha : a.Spelled) (hb : b.Spelled)
    (hac : a.isCompound = false) (hbc : b.isCompound = true) {r r' : List Char} :
    a.argText ++ r ≠ b.argText ++ r' := by
  intro he
  have hlead := ha.lead_eq hb he
  rw [lead_of_compound hbc] at hlead
  rw [argText_of_compound hbc] at he
  cases a with
  | var x => cases hlead
  | app | abs | letIn => cases hac
  | hole => exact ha.elim
  | prim p =>
    rw [argText_prim] at he
    cases p with
    | select l =>
      rw [Prim.toList_render_select] at he
      simp only [List.cons_append, List.append_assoc, List.cons.injEq, true_and] at he
      exact hb.text_ne_underscore he.symm
    | restrict l =>
      rw [Prim.toList_render_restrict] at he
      simp only [List.cons_append, List.append_assoc, List.cons.injEq, true_and] at he
      exact hb.text_ne_underscore he.symm
    | hole => exact ha.elim
    | int | bool | extend | emptyRecord => cases hlead

theorem argReads_var {x : String} (hx : Word x) : (var x).ArgReads := by
  intro a' r r' h' hr hr' he
  rw [argText_var] at he
  obtain ⟨rfl, hrr⟩ := h'.eq_var hx hr' hr he.symm
  exact ⟨rfl, hrr.symm⟩

theorem argReads_compound {a : Expr} (h : a.Spelled) (hc : a.isCompound = true)
    (ha : a.Reads) : a.ArgReads := by
  intro a' r r' h' hr hr' he
  cases hc' : a'.isCompound with
  | false => exact absurd he.symm (h'.argText_ne_compound h hc' hc)
  | true =>
    rw [argText_of_compound hc, argText_of_compound hc'] at he
    simp only [List.cons_append, List.append_assoc, List.cons.injEq, true_and,
      List.nil_append] at he
    obtain ⟨rfl, hrest⟩ := ha h' endsExpr_paren endsExpr_paren he
    exact ⟨rfl, (List.cons.inj hrest).2⟩

/-- A primitive is the only one that a text can start with. -/
theorem prim_eq_of_render {p p' : Prim} (h : p.Spelled) (h' : p'.Spelled) {r r' : List Char}
    (hr : EndsArg r) (hr' : EndsArg r') (he : p.render.toList ++ r = p'.render.toList ++ r') :
    p = p' ∧ r = r' := by
  have hs : (prim p).Spelled := h
  have hs' : (prim p').Spelled := h'
  have hlead := hs.lead_eq hs' (by simpa using he)
  -- the label ends at the character that follows it
  have hlabel : ∀ {l l' : String} {c : Char} {s s' : List Char}, Word l → Word l' →
      isWordChar c = false → l.toList ++ c :: s = l'.toList ++ c :: s' → l = l' ∧ s = s' := by
    intro l l' c s s' hl hl' hc heq
    obtain ⟨hll, hss⟩ := split_at (hl.not_mem hc) (hl'.not_mem hc) heq
    exact ⟨String.toList_injective hll, hss⟩
  cases p with
  | int n =>
    cases p' with
    | int n' =>
      obtain ⟨hn, hrr⟩ := split_of_stops (fun _ => isNumeral_of_mem) (fun _ => isNumeral_of_mem)
        (hr.stops rfl rfl) (hr'.stops rfl rfl) he
      exact ⟨congrArg Prim.int (numeral_unique hn), hrr⟩
    | _ => cases hlead
  | bool b =>
    cases p' with
    | bool b' =>
      cases b <;> cases b'
      · exact ⟨rfl, List.append_cancel_left he⟩
      · simp [Prim.render] at he
      · simp [Prim.render] at he
      · exact ⟨rfl, List.append_cancel_left he⟩
    | _ => cases hlead
  | select l =>
    cases p' with
    | select l' =>
      simp only [Prim.toList_render_select, List.cons_append, List.append_assoc, List.nil_append,
        List.cons.injEq, true_and] at he
      obtain ⟨rfl, hrr⟩ := hlabel h h' rfl he
      exact ⟨rfl, hrr⟩
    | restrict l' => simp [Prim.render] at he
    | hole => exact h'.elim
    | _ => cases hlead
  | restrict l =>
    cases p' with
    | restrict l' =>
      simp only [Prim.toList_render_restrict, List.cons_append, List.append_assoc, List.nil_append,
        List.cons.injEq, true_and] at he
      obtain ⟨rfl, hrr⟩ := hlabel h h' rfl he
      exact ⟨rfl, hrr⟩
    | select l' => simp [Prim.render] at he
    | hole => exact h'.elim
    | _ => cases hlead
  | extend l =>
    cases p' with
    | extend l' =>
      simp only [Prim.toList_render_extend, List.cons_append, List.append_assoc, List.nil_append,
        List.cons.injEq, true_and] at he
      obtain ⟨rfl, hrr⟩ := hlabel h h' rfl he
      simp only [List.cons.injEq, true_and] at hrr
      exact ⟨rfl, hrr⟩
    | emptyRecord =>
      rw [Prim.toList_render_extend, List.cons_append, List.append_assoc] at he
      exact absurd (List.cons.inj he).2 (Word.append_ne_cons h rfl)
    | _ => cases hlead
  | emptyRecord =>
    cases p' with
    | emptyRecord => exact ⟨rfl, List.append_cancel_left he⟩
    | extend l' =>
      rw [Prim.toList_render_extend, List.cons_append, List.append_assoc] at he
      exact absurd (List.cons.inj he).2.symm (Word.append_ne_cons h' rfl)
    | _ => cases hlead
  | hole => exact h.elim

theorem argReads_prim {p : Prim} (hp : p.Spelled) : (prim p).ArgReads := by
  intro a' r r' h' hr hr' he
  have hs : (prim p).Spelled := hp
  cases hc : a'.isCompound with
  | true => exact absurd he (hs.argText_ne_compound h' rfl hc)
  | false =>
    cases a' with
    | app | abs | letIn => cases hc
    | hole => exact h'.elim
    | var x => cases (hs.eq_var h'.1 hr hr' (by simpa using he)).1
    | prim p' =>
      obtain ⟨rfl, hrr⟩ := prim_eq_of_render hp h' hr hr' (by simpa using he)
      exact ⟨rfl, hrr⟩

/-- Where an expression ends, no argument follows. -/
theorem Spelled.arg_not_endsExpr {a : Expr} (h : a.Spelled) {r : List Char} (hr : EndsArg r) :
    ¬EndsExpr (' ' :: (a.argText ++ r)) := by
  intro he
  rcases he with he | ⟨r', he⟩ | ⟨r', he⟩
  · cases he
  · simp at he
  · exact h.argText_ne_keyword (.inr rfl) hr (List.cons.inj he).2

/-- Arguments can be read one after the other. -/
theorem args_eq_of_argsText {args args' : List Expr} {r r' : List Char}
    (h : ∀ a ∈ args, a.Spelled ∧ a.ArgReads) (h' : ∀ a ∈ args', a.Spelled) (hr : EndsExpr r)
    (hr' : EndsExpr r') (he : argsText args ++ r = argsText args' ++ r') :
    args = args' ∧ r = r' := by
  induction args generalizing args' with
  | nil =>
    cases args' with
    | nil => exact ⟨rfl, he⟩
    | cons a' args' =>
      simp only [argsText_nil, argsText_cons, List.nil_append, List.cons_append,
        List.append_assoc] at he
      exact absurd (he ▸ hr) ((h' a' List.mem_cons_self).arg_not_endsExpr (hr'.endsArg_args args'))
  | cons a args ih =>
    obtain ⟨ha, hread⟩ := h a List.mem_cons_self
    cases args' with
    | nil =>
      simp only [argsText_nil, argsText_cons, List.nil_append, List.cons_append,
        List.append_assoc] at he
      exact absurd (he ▸ hr') (ha.arg_not_endsExpr (hr.endsArg_args args))
    | cons a' args' =>
      simp only [argsText_cons, List.cons_append, List.append_assoc, List.cons.injEq,
        true_and] at he
      obtain ⟨rfl, hrest⟩ := hread (h' a' List.mem_cons_self) (hr.endsArg_args args)
        (hr'.endsArg_args args') he
      obtain ⟨rfl, hrr⟩ := ih (fun b hb => h b (List.mem_cons_of_mem _ hb))
        (fun b hb => h' b (List.mem_cons_of_mem _ hb)) hrest
      exact ⟨rfl, hrr⟩

/-! ## Expressions -/

theorem reads_abs {x : String} {b : Expr} (hx : Word x) (hb : b.Reads) : (abs x b).Reads := by
  intro e' r r' h' hr hr' he
  simp only [text_abs, List.cons_append, List.append_assoc] at he
  rcases h'.form with ⟨x', b', rfl⟩ | ⟨x', b₁', b₂', rfl⟩ | ⟨f, args, -, hf, -, htext⟩
  · simp only [text_abs, List.cons_append, List.append_assoc, List.cons.injEq, true_and] at he
    obtain ⟨rfl, hrest⟩ := hx.split h'.1 (stops_cons.2 rfl) (stops_cons.2 rfl) he
    simp only [List.cons.injEq, true_and] at hrest
    obtain ⟨rfl, hrr⟩ := hb h'.2 hr hr' hrest
    exact ⟨rfl, hrr⟩
  · simp at he
  · rw [htext, List.append_assoc] at he
    exact absurd he.symm (hf.argText_ne_cons rfl)

theorem reads_letIn {x : String} {b₁ b₂ : Expr} (hx : Word x) (hb₁ : b₁.Reads) (hb₂ : b₂.Reads) :
    (letIn x b₁ b₂).Reads := by
  intro e' r r' h' hr hr' he
  simp only [text_letIn, List.cons_append, List.append_assoc] at he
  rcases h'.form with ⟨x', b', rfl⟩ | ⟨x', b₁', b₂', rfl⟩ | ⟨f, args, -, hf, -, htext⟩
  · simp at he
  · simp only [text_letIn, List.cons_append, List.append_assoc, List.cons.injEq, true_and] at he
    obtain ⟨rfl, hrest⟩ := hx.split h'.1 (stops_cons.2 rfl) (stops_cons.2 rfl) he
    simp only [List.cons.injEq, true_and] at hrest
    -- the bound expression ends before the keyword, whatever it ends with
    obtain ⟨rfl, hbody⟩ := hb₁ h'.2.1 endsExpr_in endsExpr_in hrest
    simp only [List.cons.injEq, true_and] at hbody
    obtain ⟨rfl, hrr⟩ := hb₂ h'.2.2 hr hr' hbody
    exact ⟨rfl, hrr⟩
  · rw [htext, List.append_assoc] at he
    exact absurd he.symm (hf.argText_ne_keyword (.inl rfl) (hr'.endsArg_args args))

/-- A head that can be read, with arguments that can be read. -/
theorem reads_of_text {e f : Expr} {args : List Expr} (he : e = f.apply args)
    (htext : e.text = f.argText ++ argsText args) (hs : f.Spelled) (hf : f.ArgReads)
    (hargs : ∀ a ∈ args, a.Spelled ∧ a.ArgReads) : e.Reads := by
  intro e' r r' h' hr hr' heq
  rw [htext, List.append_assoc] at heq
  rcases h'.form with ⟨x', b', rfl⟩ | ⟨x', b₁', b₂', rfl⟩ | ⟨f', args', rfl, hs', hargs', htext'⟩
  · rw [text_abs] at heq
    exact absurd heq (hs.argText_ne_cons rfl)
  · rw [text_letIn] at heq
    exact absurd heq (hs.argText_ne_keyword (.inl rfl) (hr.endsArg_args args))
  · rw [htext', List.append_assoc] at heq
    obtain ⟨rfl, hrest⟩ := hf hs' (hr.endsArg_args args) (hr'.endsArg_args args') heq
    obtain ⟨rfl, hrr⟩ := args_eq_of_argsText hargs hargs' hr hr' hrest
    exact ⟨he, hrr⟩

theorem Reads.argReads {a : Expr} (hs : a.Spelled) (h : a.Reads) : a.ArgReads := by
  cases a with
  | var x => exact argReads_var hs.1
  | prim p => exact argReads_prim hs
  | app | abs | letIn => exact argReads_compound hs rfl h
  | hole => exact hs.elim

/-- As the head of an application, a function or a binding stands in parentheses. -/
theorem Reads.apply {e : Expr} (hs : e.Spelled) (happ : e.isApp = false) (h : e.Reads)
    {args : List Expr} (hargs : ∀ a ∈ args, a.Spelled ∧ a.ArgReads) : (e.apply args).Reads := by
  cases args with
  | nil => exact h
  | cons a args => exact reads_of_text rfl (text_apply happ a args) hs (h.argReads hs) hargs

/-- The application of any expression to arguments that can be read can be read. -/
theorem reads_apply {e : Expr} (h : e.Spelled) (args : List Expr)
    (hargs : ∀ a ∈ args, a.Spelled ∧ a.ArgReads) : (e.apply args).Reads := by
  induction e generalizing args with
  | var x => exact reads_of_text rfl (text_apply_of_not_isOpen rfl args) h (argReads_var h.1) hargs
  | prim p => exact reads_of_text rfl (text_apply_of_not_isOpen rfl args) h (argReads_prim h) hargs
  | abs x b ih =>
    have hb : b.Reads := ih h.2 [] (by simp)
    exact (reads_abs h.1 hb).apply h rfl hargs
  | letIn x b₁ b₂ ih₁ ih₂ =>
    have hb₁ : b₁.Reads := ih₁ h.2.1 [] (by simp)
    have hb₂ : b₂.Reads := ih₂ h.2.2 [] (by simp)
    exact (reads_letIn h.1 hb₁ hb₂).apply h rfl hargs
  | hole => exact h.elim
  | app f a ihf iha =>
    -- the argument joins those that follow
    have ha : a.Reads := iha h.2 [] (by simp)
    refine ihf h.1 (a :: args) ?_
    intro b hb
    rcases List.mem_cons.1 hb with rfl | hb
    · exact ⟨h.2, ha.argReads h.2⟩
    · exact hargs b hb

/-- Of expressions without holes and without variables called like keywords, only equal ones have
one text. -/
theorem render_eq_iff (e e' : Expr) (h : e.Spelled) (h' : e'.Spelled) :
    e.render = e'.render ↔ e = e' := by
  refine ⟨fun he => ?_, congrArg render⟩
  have hread : e.Reads := reads_apply h [] (by simp)
  exact (hread h' endsExpr_nil endsExpr_nil (congrArg (String.toList · ++ []) he)).1

/-- A binding whose bound expression is a binding of a function, followed by an application. -/
def nestedLets (use : Expr) : Expr :=
  letIn "x" (letIn "y" (abs "z" (app (var "f") (var "z"))) (var "y")) use

theorem render_nestedLets :
    (nestedLets (app (app (var "x") (int (-1))) (select "l"))).Spelled ∧
      (nestedLets (app (var "x") (app (int (-1)) (select "l")))).Spelled ∧
      (nestedLets (app (app (var "x") (int (-1))) (select "l"))).render =
        "let x = let y = \\z -> f z in y in x -1 (_.l)" ∧
      (nestedLets (app (app (var "x") (int (-1))) (select "l"))).render ≠
        (nestedLets (app (var "x") (app (int (-1)) (select "l")))).render := by
  have h : (nestedLets (app (app (var "x") (int (-1))) (select "l"))).Spelled := by decide +kernel
  have h' : (nestedLets (app (var "x") (app (int (-1)) (select "l")))).Spelled := by decide +kernel
  refine ⟨h, h', by decide +kernel, fun he => ?_⟩
  exact absurd ((render_eq_iff _ _ h h').1 he) (by decide)

end Expr

end RowTyping
