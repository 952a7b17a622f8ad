import RowTyping.Ty.Basic

/-! # Rows

A row is read in two ways. `rowFields` and `rowEnd` walk the chain of fields and
accept any type. `decompose` accepts proper rows only: the labels along the
chain differ, and the chain ends in the empty row or in a variable. -/

namespace RowTyping

/-- A proper row: its fields in order, and the variable it ends in unless it is closed. -/
structure Row where
  fields : List (String × Ty)
  tail : Option TyVar
  deriving DecidableEq

/-- Why a type is not a proper row. -/
inductive RowDefect where
  /-- The chain repeats this label. -/
  | repeated (label : String)
  /-- The chain ends in this type, which is neither the empty row nor a variable. -/
  | badEnd (t : Ty)
  deriving DecidableEq

namespace Ty

/-- The fields along a chain, without any check. -/
def rowFields : Ty → List (String × Ty)
  | rowExtend l f t => (l, f) :: t.rowFields
  | _ => []

/-- The type that a chain of fields ends in. -/
def rowEnd : Ty → Ty
  | rowExtend _ _ t => t.rowEnd
  | t => t

/-- The variable that a chain of fields ends in. -/
def rowEndVar? (t : Ty) : Option TyVar :=
  match t.rowEnd with
  | var v => some v
  | _ => none

/-- Whether a type has the head of a row: a field, the empty row or a variable. -/
def isRow : Ty → Bool
  | rowExtend .. | rowEmpty | var _ => true
  | _ => false

/-- Puts fields in front of a row. -/
def extendRow (fields : List (String × Ty)) (tail : Ty) : Ty :=
  fields.foldr (fun e t => rowExtend e.1 e.2 t) tail

/-- The record type with these fields; closed when its row ends in `rowEmpty`. -/
def recordOf (fields : List (String × Ty)) (tail : Ty) : Ty := record (extendRow fields tail)

/-- Splits a row whose labels must also avoid those in `seen`. -/
def decomposeAvoiding (seen : Labels) : Ty → Except RowDefect Row
  | rowExtend l f t =>
    if l ∈ seen then .error (.repeated l)
    else (decomposeAvoiding (seen.insert l) t).map fun r => { r with fields := (l, f) :: r.fields }
  | rowEmpty => .ok ⟨[], none⟩
  | var v => .ok ⟨[], some v⟩
  | t => .error (.badEnd t)

/-- Splits a proper row into its fields and its end. The first defect along the chain counts. -/
def decompose (t : Ty) : Except RowDefect Row := t.decomposeAvoiding .empty

end Ty

/-- The labels of a row. -/
def Row.labels (r : Row) : Labels := .ofList (r.fields.map Prod.fst)

end RowTyping
