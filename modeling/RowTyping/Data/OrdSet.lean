/-! # Finite sets in increasing order

A set is kept as the strictly increasing list of its members. The list is the
only representation of the set, so two sets with the same members are equal
(`OrdSet.ext`), and listing a set needs no sorting step. Each operation comes
with the one lemma that says which elements it holds. -/

namespace RowTyping

open Std

universe u

/-- A finite set of elements of an ordered type. -/
structure OrdSet (α : Type u) [Ord α] where
  /-- The members, in increasing order. -/
  toList : List α
  /-- Each member is below all later ones. -/
  sorted : toList.Pairwise fun a b => compare a b = .lt

namespace OrdSet

variable {α : Type u} [Ord α]

instance [DecidableEq α] : DecidableEq (OrdSet α) := fun s t =>
  decidable_of_iff (s.toList = t.toList) (by cases s; cases t; simp)

instance : Membership α (OrdSet α) := ⟨fun s a => a ∈ s.toList⟩

instance [DecidableEq α] (a : α) (s : OrdSet α) : Decidable (a ∈ s) :=
  inferInstanceAs (Decidable (a ∈ s.toList))

/-- The set with no members. -/
def empty : OrdSet α := ⟨[], .nil⟩

/-- The set with one member. -/
def singleton (a : α) : OrdSet α := ⟨[a], by simp⟩

/-- Whether the set has no members. -/
def isEmpty (s : OrdSet α) : Bool := s.toList.isEmpty

/-- The number of members. -/
def size (s : OrdSet α) : Nat := s.toList.length

/-- The members that pass a test. -/
def filter (p : α → Bool) (s : OrdSet α) : OrdSet α :=
  ⟨s.toList.filter p, s.sorted.filter p⟩

/-- Inserts an element into an increasing list, unless it is there already. -/
def insertSorted (a : α) : List α → List α
  | [] => [a]
  | b :: l =>
    match compare a b with
    | .lt => a :: b :: l
    | .eq => b :: l
    | .gt => b :: insertSorted a l

variable [LawfulEqOrd α]

@[simp] theorem mem_insertSorted {a x : α} {l : List α} :
    x ∈ insertSorted a l ↔ x = a ∨ x ∈ l := by
  induction l with
  | nil => simp [insertSorted]
  | cons b l ih =>
    cases h : compare a b with
    | lt => simp [insertSorted, h]
    | eq =>
      have hab : a = b := LawfulEqOrd.eq_of_compare h
      subst hab
      simp [insertSorted]
    | gt =>
      simp only [insertSorted, h, List.mem_cons, ih]
      exact or_left_comm

variable [TransOrd α]

theorem sorted_insertSorted {a : α} {l : List α}
    (hl : l.Pairwise fun x y => compare x y = .lt) :
    (insertSorted a l).Pairwise fun x y => compare x y = .lt := by
  induction l with
  | nil => simp [insertSorted]
  | cons b l ih =>
    obtain ⟨hb, hl⟩ := List.pairwise_cons.1 hl
    cases h : compare a b with
    | lt =>
      simp only [insertSorted, h, List.pairwise_cons, List.mem_cons]
      refine ⟨?_, hb, hl⟩
      rintro x (rfl | hx)
      · exact h
      · exact TransCmp.lt_trans h (hb x hx)
    | eq =>
      simp only [insertSorted, h]
      exact List.pairwise_cons.2 ⟨hb, hl⟩
    | gt =>
      simp only [insertSorted, h, List.pairwise_cons, mem_insertSorted]
      refine ⟨?_, ih hl⟩
      rintro x (rfl | hx)
      · exact OrientedCmp.lt_of_gt h
      · exact hb x hx

/-- The set with one more member. -/
def insert (a : α) (s : OrdSet α) : OrdSet α :=
  ⟨insertSorted a s.toList, sorted_insertSorted s.sorted⟩

/-- The set of the elements of a list. -/
def ofList (l : List α) : OrdSet α := l.foldr insert empty

/-- The elements of either set. -/
def union (s t : OrdSet α) : OrdSet α := s.toList.foldr insert t

instance : Union (OrdSet α) := ⟨union⟩

/-- The elements of `s` that are not in `t`. -/
def diff [DecidableEq α] (s t : OrdSet α) : OrdSet α := s.filter fun a => !decide (a ∈ t)

instance [DecidableEq α] : SDiff (OrdSet α) := ⟨diff⟩

/-- The elements of both sets. -/
def inter [DecidableEq α] (s t : OrdSet α) : OrdSet α := s.filter fun a => decide (a ∈ t)

instance [DecidableEq α] : Inter (OrdSet α) := ⟨inter⟩

/-! ## Membership -/

omit [LawfulEqOrd α] [TransOrd α] in
theorem mem_toList {a : α} {s : OrdSet α} : a ∈ s.toList ↔ a ∈ s := Iff.rfl

omit [LawfulEqOrd α] [TransOrd α] in
@[simp] theorem not_mem_empty (a : α) : a ∉ (empty : OrdSet α) := List.not_mem_nil

omit [LawfulEqOrd α] [TransOrd α] in
@[simp] theorem mem_singleton {a b : α} : a ∈ singleton b ↔ a = b := List.mem_singleton

omit [LawfulEqOrd α] [TransOrd α] in
@[simp] theorem mem_filter {a : α} {p : α → Bool} {s : OrdSet α} :
    a ∈ s.filter p ↔ a ∈ s ∧ p a = true := List.mem_filter

@[simp] theorem mem_insert {a x : α} {s : OrdSet α} : x ∈ s.insert a ↔ x = a ∨ x ∈ s :=
  mem_insertSorted

theorem mem_foldr_insert {x : α} {l : List α} {s : OrdSet α} :
    x ∈ l.foldr insert s ↔ x ∈ l ∨ x ∈ s := by
  induction l with
  | nil => simp
  | cons a l ih => simp [ih, or_assoc]

@[simp] theorem mem_ofList {x : α} {l : List α} : x ∈ ofList l ↔ x ∈ l := by
  simp [ofList, mem_foldr_insert]

@[simp] theorem mem_union {x : α} {s t : OrdSet α} : x ∈ s ∪ t ↔ x ∈ s ∨ x ∈ t :=
  mem_foldr_insert

omit [LawfulEqOrd α] [TransOrd α] in
@[simp] theorem mem_diff [DecidableEq α] {x : α} {s t : OrdSet α} :
    x ∈ s \ t ↔ x ∈ s ∧ x ∉ t := by
  show x ∈ s.filter _ ↔ _
  simp

omit [LawfulEqOrd α] [TransOrd α] in
@[simp] theorem mem_inter [DecidableEq α] {x : α} {s t : OrdSet α} :
    x ∈ s ∩ t ↔ x ∈ s ∧ x ∈ t := by
  show x ∈ s.filter _ ↔ _
  simp

omit [LawfulEqOrd α] [TransOrd α] in
theorem isEmpty_iff {s : OrdSet α} : s.isEmpty = true ↔ s = empty := by
  cases s with
  | mk l h => cases l <;> simp [isEmpty, empty]

omit [LawfulEqOrd α] in
theorem nodup_of_sorted {l : List α} (h : l.Pairwise fun x y => compare x y = .lt) :
    l.Nodup :=
  h.imp fun {a b} hab e => by subst e; simp at hab

omit [LawfulEqOrd α] in
/-- A set is determined by its members. -/
theorem ext {s t : OrdSet α} (h : ∀ x, x ∈ s ↔ x ∈ t) : s = t := by
  have hp : s.toList.Perm t.toList :=
    (List.perm_ext_iff_of_nodup (nodup_of_sorted s.sorted) (nodup_of_sorted t.sorted)).2 h
  have hl : s.toList = t.toList :=
    hp.eq_of_pairwise
      (fun a b _ _ (hab : compare a b = .lt) (hba : compare b a = .lt) =>
        absurd hba (OrientedCmp.not_lt_of_lt hab))
      s.sorted t.sorted
  cases s
  cases t
  simpa using hl

end OrdSet

end RowTyping
