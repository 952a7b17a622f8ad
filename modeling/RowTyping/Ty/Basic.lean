import RowTyping.Data.OrdSet

/-! # Types with rows

One syntax serves for types and for rows. A row lists labelled fields and ends
in the empty row or in a variable; a record type wraps a row. The syntax does
not force a row where one is meant: the operations that need a row check for
it.

A type variable carries what it may stand for. `Constraint.free` admits any
type; `Constraint.lacks ls` admits the rows without a field named in `ls`. The
constraint is part of the variable's identity. -/

namespace RowTyping

open Std

/-- A finite set of field labels. -/
abbrev Labels := OrdSet String

/-- What a type variable may stand for. -/
inductive Constraint where
  /-- Any type at all. -/
  | free
  /-- A row that holds none of these labels. -/
  | lacks (labels : Labels)
  deriving DecidableEq

namespace Constraint

/-- The labels that are excluded; none when the constraint is `free`. -/
def labels : Constraint → Labels
  | free => .empty
  | lacks ls => ls

/-- The excluded labels as a list, and `none` for no constraint at all. -/
def toOption : Constraint → Option (List String)
  | free => none
  | lacks ls => some ls.toList

theorem toOption_injective {c d : Constraint} (h : c.toOption = d.toOption) : c = d := by
  cases c <;> cases d <;> simp [toOption] at h
  · rfl
  · next s t =>
    cases s
    cases t
    simpa using h

end Constraint

/-- A type variable: two variables are the same when name and constraint agree. -/
structure TyVar where
  name : String
  constraint : Constraint
  deriving DecidableEq

namespace TyVar

/-- The labels a variable's row must not hold. -/
def labels (v : TyVar) : Labels := v.constraint.labels

/-- By name; of two variables with one name the unconstrained one comes first, then the one
with the smaller list of labels. Only the order of names is prescribed: a set sorted by name
leaves open which of two variables with one name comes first, and here their constraints decide. -/
instance : Ord TyVar := ⟨fun u v =>
  (compare u.name v.name).then (compare u.constraint.toOption v.constraint.toOption)⟩

theorem compare_def (u v : TyVar) : compare u v =
    (compare u.name v.name).then (compare u.constraint.toOption v.constraint.toOption) := rfl

instance : OrientedOrd TyVar where
  eq_swap {u v} := by
    rw [compare_def, compare_def, Ordering.swap_then, ← OrientedOrd.eq_swap,
      ← OrientedOrd.eq_swap]

instance : TransOrd TyVar where
  isLE_trans {u v w} huv hvw := by
    simp only [compare_def, Ordering.isLE_then_iff_or] at *
    rcases huv with huv | ⟨huv, huv'⟩ <;> rcases hvw with hvw | ⟨hvw, hvw'⟩
    · exact .inl (TransCmp.lt_trans huv hvw)
    · exact .inl (TransCmp.lt_of_lt_of_eq huv hvw)
    · exact .inl (TransCmp.lt_of_eq_of_lt huv hvw)
    · exact .inr ⟨TransCmp.eq_trans huv hvw, TransCmp.isLE_trans huv' hvw'⟩

instance : LawfulEqOrd TyVar where
  eq_of_compare {u v} h := by
    rw [compare_def, Ordering.then_eq_eq] at h
    have hn := LawfulEqOrd.eq_of_compare h.1
    have hc := Constraint.toOption_injective (LawfulEqOrd.eq_of_compare h.2)
    cases u
    cases v
    simp_all

end TyVar

/-- A finite set of type variables. -/
abbrev TyVars := OrdSet TyVar

/-- Types and rows. -/
inductive Ty where
  | var (v : TyVar)
  | int
  | bool
  /-- Functions from `arg` to `ret`. -/
  | fn (arg ret : Ty)
  /-- Records with the fields of `row`. -/
  | record (row : Ty)
  /-- The row without fields. -/
  | rowEmpty
  /-- The row `tail` with the field `label` in front. -/
  | rowExtend (label : String) (field tail : Ty)
  deriving DecidableEq

namespace Ty

/-- The variables that occur in a type. -/
def freeVars : Ty → TyVars
  | var v => .singleton v
  | int | bool | rowEmpty => .empty
  | fn a r => a.freeVars ∪ r.freeVars
  | record r => r.freeVars
  | rowExtend _ f t => t.freeVars ∪ f.freeVars

/-- The labels of all row fields in a type. -/
def fieldLabels : Ty → Labels
  | var _ | int | bool | rowEmpty => .empty
  | fn a r => a.fieldLabels ∪ r.fieldLabels
  | record r => r.fieldLabels
  | rowExtend l f t => (f.fieldLabels ∪ t.fieldLabels).insert l

/-- The number of constructors of a type. -/
def size : Ty → Nat
  | var _ | int | bool | rowEmpty => 1
  | fn a r => a.size + r.size + 1
  | record r => r.size + 1
  | rowExtend _ f t => f.size + t.size + 1

end Ty

end RowTyping
