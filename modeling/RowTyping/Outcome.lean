import RowTyping.Infer

/-! # Outcomes

What a run of inference comes to, as a value: a type or an error. -/

namespace RowTyping

/-- The outcome of a run. One of the two is set. -/
structure Outcome where
  type : Option Ty
  error : Option InferError
  deriving DecidableEq

namespace Outcome

/-- Whether the run met no error. -/
def isOk (o : Outcome) : Bool := o.error.isNone

/-- The type, or else what stands against it. -/
def unwrap (o : Outcome) : Except Fault Ty :=
  match o.error, o.type with
  | some e, _ => .error (.infer e)
  | none, some t => .ok t
  | none, none => .error .noOutcome

/-- The type with all its variables quantified. -/
def scheme (o : Outcome) : Except Fault Scheme := o.unwrap.map (Env.generalize .empty)

/-- The text of the scheme or of the error. -/
def render (o : Outcome) : Except Fault String :=
  match o.error with
  | some e => .ok ("error: " ++ e.message)
  | none => o.scheme.map Scheme.render

end Outcome

/-- Infers the type of an expression, with schemes made by `gen`, and reports failure as a
value. -/
def outcomeOfWith (gen : Env → Ty → Scheme) (env : Env) (e : Expr) : InferM Outcome := do
  match ← InferM.attempt (typeOfWith gen env e) with
  | .ok t => return ⟨some t, none⟩
  | .error err => return ⟨none, some err⟩

/-- Infers the type of an expression and reports failure as a value. -/
def outcomeOf (env : Env) (e : Expr) : InferM Outcome := outcomeOfWith Env.generalize env e

end RowTyping
