import RowTyping.Ty.Printer

/-! # Errors

An `InferError` says why an expression has no type, or why two types have no
common instance. A `Fault` is anything that ends a computation early: an
inference error, or an input outside the language (a type that is no row where
a row is needed, a hole in an expression). -/

namespace RowTyping

/-- Why inference or unification failed. -/
inductive InferError where
  /-- The name is not in scope. -/
  | unboundVariable (name : String)
  /-- The two types have different constructors. -/
  | mismatch (t₁ t₂ : Ty)
  /-- The variable would have to stand for a type that contains it. -/
  | occurs (v : TyVar) (t : Ty)
  /-- A row would hold these labels twice. -/
  | duplicateLabels (labels : Labels)
  /-- A closed row does not hold the label. -/
  | labelNotFound (label : String)
  /-- Two rows that share their end would have to differ in it. -/
  | recursiveRow (v : TyVar)
  /-- Any other reason. -/
  | other (message : String)
  deriving DecidableEq

/-- The wording of an inference error. -/
def InferError.message : InferError → String
  | unboundVariable x => "unbound variable: " ++ x
  | mismatch t₁ t₂ => "types do not unify: " ++ t₁.render ++ " vs. " ++ t₂.render
  | occurs v t => "occurs check fails: " ++ v.name ++ " occurs in " ++ t.render
  | duplicateLabels ls => "repeated labels: " ++ ", ".intercalate ls.toList
  | labelNotFound l => "label " ++ l ++ " cannot be inserted"
  | recursiveRow v => "recursive row type through " ++ v.name
  | other m => m

/-- The operations that need a row. -/
inductive RowOperation where
  /-- Splitting a row into its fields and its end. -/
  | decompose
  /-- Bringing a field to the front of a row. -/
  | expose
  deriving DecidableEq

/-- The name under which an operation is reported. -/
def RowOperation.name : RowOperation → String
  | decompose => "decompose_row"
  | expose => "rewrite_row"

/-- What ends a computation early. -/
inductive Fault where
  | infer (e : InferError)
  /-- The operation met a type that is no row. -/
  | notARow (op : RowOperation) (t : Ty)
  /-- A hole stands in the place of an expression. -/
  | unknownExpr
  /-- A hole stands in the place of a primitive. -/
  | unknownPrim
  /-- An outcome has neither a type nor an error. -/
  | noOutcome
  /-- Unification went deeper than its bound. -/
  | outOfFuel
  deriving DecidableEq

/-- The wording of a fault. -/
def Fault.message : Fault → String
  | infer e => e.message
  | notARow op t => op.name ++ ": unexpected type " ++ t.render
  | unknownExpr => "Unknown expression: None"
  | unknownPrim => "Unknown primitive: None"
  | noOutcome => "inference result holds neither a type nor an error"
  | outOfFuel => "unification went too deep"

/-- The fault of a bare decomposition. -/
def RowDefect.toFault : RowDefect → Fault
  | repeated l => .infer (.duplicateLabels (.singleton l))
  | badEnd t => .notARow .decompose t

end RowTyping
