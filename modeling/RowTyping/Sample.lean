import RowTyping.Outcome

/-! # Sample programs

Small expressions that show records, rows and polymorphic `let`, some of them
without a type. -/

namespace RowTyping

/-- A named expression with the environment it needs. -/
structure Sample where
  name : String
  expr : Expr
  env : Env

namespace Sample

/-- The only name that samples take from outside, `same : forall s. s -> s -> s`. -/
def prelude : Env :=
  let s : TyVar := ⟨"s", .free⟩
  .singleton "same" ⟨[s], .fn (.var s) (.fn (.var s) (.var s))⟩

/-- The record with the field `y`. -/
def recordY : Expr := .apply (.extend "y") [.int 2, .emptyRecord]

/-- The record with the fields `x` and `y`. -/
def recordXY : Expr := .apply (.extend "x") [.int 1, recordY]

/-- The function that selects the field `x`. -/
def selectX : Expr := .abs "r" (.apply (.select "x") [.var "r"])

/-- All samples, in the order in which they are shown. -/
def all : List Sample := [
  ⟨"e1", recordY, .empty⟩,
  ⟨"e2", recordXY, .empty⟩,
  ⟨"e3", .apply (.select "y") [recordXY], .empty⟩,
  ⟨"e4", .letIn "f" selectX (.var "f"), .empty⟩,
  ⟨"e5", selectX, .empty⟩,
  ⟨"restrict", .apply (.restrict "x") [recordXY], .empty⟩,
  ⟨"poly_id",
    .letIn "id" (.abs "x" (.var "x")) (.apply (.var "id") [.var "id", .bool true]), .empty⟩,
  ⟨"missing_label", .apply (.select "z") [recordXY], .empty⟩,
  ⟨"shared_tail",
    .abs "r" (.apply (.var "same")
      [.apply (.extend "x") [.int 1, .var "r"], .apply (.extend "y") [.int 2, .var "r"]]),
    prelude⟩,
  ⟨"unbound", .var "undefined_name", .empty⟩]

/-- The sample of a name. -/
def find? (name : String) : Option Sample := all.find? fun s => s.name == name

/-- Infers the type of a sample. -/
def outcome (s : Sample) : InferM Outcome := outcomeOf s.env s.expr

end Sample

end RowTyping
