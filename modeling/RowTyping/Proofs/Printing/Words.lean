/-!
# Words in a text

The names and labels that can be told from the rest of a text are *words*: a lower-case letter
followed by lower-case letters and digits. A word ends where the text goes on with anything else, so
a text starts with at most one word that is followed by such a stop (`Word.split`). The same
argument takes apart any text whose first part is known by its characters (`split_of_stops`), in
particular a list whose members do not hold the first character of what divides them
(`intercalate_inj`). A number is known by its digits (`digits_unique`).
-/

namespace RowTyping

/-! ## Stops -/

/-- The text does not go on with a character that passes the test. -/
def Stops (p : Char → Bool) (r : List Char) : Prop := ∀ c ∈ r.head?, p c = false

section Stops

variable {p : Char → Bool} {w w' r r' : List Char}

@[simp] theorem stops_nil : Stops p [] := fun _ hc => by cases hc

@[simp] theorem stops_cons {c : Char} : Stops p (c :: r) ↔ p c = false := by
  simp [Stops]

theorem takeWhile_of_stops (hr : Stops p r) : r.takeWhile p = [] := by
  cases r with
  | nil => rfl
  | cons c r =>
    rw [stops_cons] at hr
    simp [hr]

/-- Where the test first fails, the text falls into two parts. -/
theorem split_of_stops (hw : ∀ c ∈ w, p c = true) (hw' : ∀ c ∈ w', p c = true) (hr : Stops p r)
    (hr' : Stops p r') (h : w ++ r = w' ++ r') : w = w' ∧ r = r' := by
  have hfirst : w = w' := by
    calc w = (w ++ r).takeWhile p := by
          rw [List.takeWhile_append_of_pos hw, takeWhile_of_stops hr, List.append_nil]
      _ = (w' ++ r').takeWhile p := by rw [h]
      _ = w' := by rw [List.takeWhile_append_of_pos hw', takeWhile_of_stops hr', List.append_nil]
  subst hfirst
  exact ⟨rfl, List.append_cancel_left h⟩

/-- A text can be taken apart at the first place where a character stands. -/
theorem split_at {c : Char} (hw : c ∉ w) (hw' : c ∉ w') (h : w ++ c :: r = w' ++ c :: r') :
    w = w' ∧ r = r' := by
  have hne : ∀ {x : List Char}, c ∉ x → ∀ d ∈ x, (d != c) = true := by
    intro x hx d hd
    simp only [bne_iff_ne, ne_eq]
    rintro rfl
    exact hx hd
  obtain ⟨hww, hrr⟩ := split_of_stops (hne hw) (hne hw') (by simp) (by simp) h
  exact ⟨hww, (List.cons.inj hrr).2⟩

end Stops

/-! ## Lists -/

theorem mem_intercalate {sep : List Char} {l : List (List Char)} {c : Char}
    (h : c ∈ sep.intercalate l) : c ∈ sep ∨ ∃ x ∈ l, c ∈ x := by
  induction l with
  | nil => simp at h
  | cons x l ih =>
    cases l with
    | nil => exact .inr ⟨x, List.mem_cons_self, by simpa using h⟩
    | cons y l =>
      rw [List.intercalate_cons_cons, List.append_assoc, List.mem_append, List.mem_append] at h
      rcases h with h | h | h
      · exact .inr ⟨x, List.mem_cons_self, h⟩
      · exact .inl h
      · rcases ih h with h | ⟨z, hz, hc⟩
        · exact .inl h
        · exact .inr ⟨z, List.mem_cons_of_mem _ hz, hc⟩

theorem mem_intercalate_of_mem {sep : List Char} {l : List (List Char)} {x : List Char} {c : Char}
    (hx : x ∈ l) (hc : c ∈ x) : c ∈ sep.intercalate l := by
  induction l with
  | nil => cases hx
  | cons y l ih =>
    cases l with
    | nil =>
      rw [List.mem_singleton] at hx
      rwa [List.intercalate_singleton, ← hx]
    | cons z l =>
      rw [List.intercalate_cons_cons, List.append_assoc, List.mem_append, List.mem_append]
      rcases List.mem_cons.1 hx with rfl | hx
      · exact .inl hc
      · exact .inr (.inr (ih hx))

/-- Members that do not hold the first character of what divides them can be read off their
list. -/
theorem intercalate_inj {c : Char} {sep : List Char} {l l' : List (List Char)}
    (hl : ∀ x ∈ l, c ∉ x) (hl' : ∀ x ∈ l', c ∉ x) (hne : l ≠ []) (hne' : l' ≠ [])
    (h : (c :: sep).intercalate l = (c :: sep).intercalate l') : l = l' := by
  induction l generalizing l' with
  | nil => exact absurd rfl hne
  | cons x l ih =>
    cases l' with
    | nil => exact absurd rfl hne'
    | cons x' l' =>
      have hx := hl x List.mem_cons_self
      have hx' := hl' x' List.mem_cons_self
      cases l with
      | nil =>
        cases l' with
        | nil => simpa using h
        | cons y' l' =>
          rw [List.intercalate_singleton, List.intercalate_cons_cons] at h
          exact absurd (h ▸ by simp) hx
      | cons y l =>
        cases l' with
        | nil =>
          rw [List.intercalate_singleton, List.intercalate_cons_cons] at h
          exact absurd (h ▸ by simp) hx'
        | cons y' l' =>
          simp only [List.intercalate_cons_cons, List.append_assoc, List.cons_append] at h
          obtain ⟨rfl, hrest⟩ := split_at hx hx' h
          have htail := ih (fun z hz => hl z (List.mem_cons_of_mem _ hz))
            (fun z hz => hl' z (List.mem_cons_of_mem _ hz)) (by simp) (by simp)
            (List.append_cancel_left hrest)
          rw [htail]

/-! ## Words -/

/-- A lower-case letter or a digit. -/
def isWordChar (c : Char) : Bool := c.isLower || c.isDigit

/-- A lower-case letter, followed by lower-case letters and digits. -/
def isWord : List Char → Bool
  | [] => false
  | c :: cs => c.isLower && cs.all isWordChar

/-- The text is a single word. -/
def Word (w : String) : Prop := isWord w.toList = true

instance decidableWord (w : String) : Decidable (Word w) :=
  inferInstanceAs (Decidable (isWord w.toList = true))

namespace Word

variable {w w' : String}

theorem exists_cons (h : Word w) : ∃ c cs, w.toList = c :: cs ∧ c.isLower = true := by
  unfold Word at h
  cases hw : w.toList with
  | nil =>
    rw [hw] at h
    cases h
  | cons c cs =>
    rw [hw, isWord, Bool.and_eq_true] at h
    exact ⟨c, cs, rfl, h.1⟩

theorem isWordChar_of_mem (h : Word w) {c : Char} (hc : c ∈ w.toList) : isWordChar c = true := by
  unfold Word at h
  cases hw : w.toList with
  | nil =>
    rw [hw] at hc
    cases hc
  | cons d cs =>
    rw [hw, isWord, Bool.and_eq_true, List.all_eq_true] at h
    rw [hw, List.mem_cons] at hc
    rcases hc with rfl | hc
    · rw [isWordChar, h.1, Bool.true_or]
    · exact h.2 c hc

theorem not_mem (h : Word w) {c : Char} (hc : isWordChar c = false) : c ∉ w.toList := by
  intro hm
  rw [h.isWordChar_of_mem hm] at hc
  cases hc

/-- A text starts with at most one word that is followed by a stop. -/
theorem split (h : Word w) (h' : Word w') {r r' : List Char} (hr : Stops isWordChar r)
    (hr' : Stops isWordChar r') (he : w.toList ++ r = w'.toList ++ r') : w = w' ∧ r = r' := by
  obtain ⟨hw, hrr⟩ := split_of_stops (fun _ => h.isWordChar_of_mem) (fun _ => h'.isWordChar_of_mem)
    hr hr' he
  exact ⟨String.toList_injective hw, hrr⟩

/-- No word starts with a character that is not a lower-case letter. -/
theorem append_ne_cons (h : Word w) {c : Char} (hc : c.isLower = false) {r r' : List Char} :
    w.toList ++ r ≠ c :: r' := by
  obtain ⟨d, cs, hw, hd⟩ := h.exists_cons
  rw [hw]
  intro he
  obtain ⟨rfl, -⟩ := List.cons.inj he
  rw [hd] at hc
  cases hc

theorem ne_cons (h : Word w) {c : Char} (hc : c.isLower = false) {r : List Char} :
    w.toList ≠ c :: r := by
  rw [← List.append_nil w.toList]
  exact h.append_ne_cons hc

end Word

/-! ## Numbers -/

/-- A number can be read off its digits. -/
theorem digits_unique {k k' : Nat} (h : k.repr.toList = k'.repr.toList) : k = k' := by
  rw [Nat.toList_repr, Nat.toList_repr] at h
  have hd := congrArg (fun ds => Nat.ofDigitChars 10 ds 0) h
  rwa [Nat.ofDigitChars_ten_toDigits, Nat.ofDigitChars_ten_toDigits] at hd

end RowTyping
