/-! # Expressions

A lambda calculus with `let`, literals, and the primitives on records: the empty
record, and selection, extension and removal of a field, each of them a function
of its own. Trees that come from outside may have holes, in the place of an
expression or of a primitive; a hole has no type. -/

namespace RowTyping

/-- Literals and operations on records. -/
inductive Prim where
  /-- A number. A truth value in the place of the number is outside the model. -/
  | int (n : Int)
  | bool (b : Bool)
  /-- The function that selects a field. -/
  | select (label : String)
  /-- The function that takes a value and a record and adds a field. -/
  | extend (label : String)
  /-- The function that removes a field. -/
  | restrict (label : String)
  | emptyRecord
  /-- A hole where a primitive should stand. -/
  | hole
  deriving DecidableEq

/-- Expressions. -/
inductive Expr where
  | var (name : String)
  | prim (p : Prim)
  | app (func arg : Expr)
  | abs (param : String) (body : Expr)
  | letIn (name : String) (bound body : Expr)
  /-- A hole where an expression should stand. -/
  | hole
  deriving DecidableEq

namespace Expr

/-- Applies a function to arguments, one after the other. -/
def apply (f : Expr) (args : List Expr) : Expr := args.foldl app f

/-- The integer literal `n`. -/
def int (n : Int) : Expr := prim (.int n)

/-- The boolean literal `b`. -/
def bool (b : Bool) : Expr := prim (.bool b)

/-- Selection of a field. -/
def select (label : String) : Expr := prim (.select label)

/-- Extension by a field. -/
def extend (label : String) : Expr := prim (.extend label)

/-- Removal of a field. -/
def restrict (label : String) : Expr := prim (.restrict label)

/-- The record without fields. -/
def emptyRecord : Expr := prim .emptyRecord

end Expr

end RowTyping
