import RowTyping.Error
import RowTyping.Expr.Printer

/-! # Inference runs

A run supplies fresh variables, remembers the last failure and, when asked to,
traces its steps. What happened before a failure stays: after a failure the
supply goes on where it was left. -/

namespace RowTyping

/-- How a run names its fresh variables, and whether it traces its steps. -/
structure Config where
  /-- The start of the names of fresh type variables. -/
  typeStem : String := "a"
  /-- The start of the names of fresh row variables. -/
  rowStem : String := "r"
  trace : Bool := false
  deriving DecidableEq

/-- A step of a run. -/
inductive TraceEvent where
  /-- Inference visits an expression. -/
  | visit (e : Expr)
  /-- Two types are unified. -/
  | unify (left right : Ty)
  /-- A label is brought to the front of a row. -/
  | expose (label : String) (row : Ty)
  /-- A fresh variable is issued. -/
  | fresh (v : TyVar)
  /-- The run fails. -/
  | fail (e : InferError)
  deriving DecidableEq

/-- The wording of a step. -/
def TraceEvent.message : TraceEvent → String
  | visit e => "infer.node kind=" ++ e.formName ++ " expr=" ++ e.render
  | unify l r => "unify.step left=" ++ l.render ++ " right=" ++ r.render
  | expose l r => "rows.rewrite label=" ++ l ++ " row=" ++ r.render
  | fresh v => "context.fresh name=" ++ v.name ++ " constraint=" ++ v.constraint.render
  | fail e => "context.fail error=" ++ e.message

/-- The state of a run. -/
structure RunState where
  /-- The number of variables issued so far. -/
  issued : Nat := 0
  /-- The last failure. -/
  error : Option InferError := none
  /-- The steps traced so far. -/
  log : Array TraceEvent := #[]
  deriving DecidableEq

/-- Computations within a run. A fault keeps the state in which it arose. -/
abbrev InferM := ReaderT Config (EStateM Fault RunState)

namespace InferM

/-- Notes a step, if the run traces its steps. -/
def trace (e : TraceEvent) : InferM Unit := do
  if (← read).trace then
    modify fun s => { s with log := s.log.push e }

/-- Issues a variable. Its name is the stem and the number of variables issued before; an empty
stem gives way to that of type variables. -/
def freshWith (c : Constraint) (stem : String) : InferM TyVar := do
  let n := (← get).issued
  let typeStem := (← read).typeStem
  let v : TyVar := ⟨(if stem = "" then typeStem else stem) ++ toString n, c⟩
  modify fun s => { s with issued := n + 1 }
  trace (.fresh v)
  return v

/-- Issues an unconstrained variable. -/
def freshType : InferM TyVar := do freshWith .free (← read).typeStem

/-- Issues a variable for rows without the given labels. -/
def freshRow (lacking : Labels) : InferM TyVar := do freshWith (.lacks lacking) (← read).rowStem

/-- Records a failure and ends the computation with it. -/
def fail {α : Type} (e : InferError) : InferM α := do
  modify fun s => { s with error := some e }
  trace (.fail e)
  throw (.infer e)

/-- Runs a computation and hands over its failure as a value. The run remembers the failure; any
other fault still ends the computation. -/
def attempt {α : Type} (x : InferM α) : InferM (Except InferError α) := fun cfg s =>
  match x cfg s with
  | .ok a s => .ok (.ok a) s
  | .error (.infer e) s => .ok (.error e) { s with error := some e }
  | .error f s => .error f s

end InferM

end RowTyping
