import RowTyping.Subst

/-! # Type schemes

A scheme quantifies some variables of a type. The quantified variables are kept
in the order in which they are written; an instance gives each of them a type of
its own. -/

namespace RowTyping

/-- The type `body`, for all values of `vars`. -/
structure Scheme where
  vars : List TyVar
  body : Ty
  deriving DecidableEq

namespace Scheme

/-- The scheme of a single type. -/
def mono (t : Ty) : Scheme := ⟨[], t⟩

/-- The variables of the body that are not quantified. -/
def freeVars (σ : Scheme) : TyVars := σ.body.freeVars.filter fun v => !decide (v ∈ σ.vars)

/-- Replaces the variables that are not quantified. -/
def subst (s : Subst) (σ : Scheme) : Scheme :=
  { σ with body := σ.body.subst (s.filterKeys fun v => !decide (v ∈ σ.vars)) }

/-- The lacks constraints of the quantified variables, such as `r\x\y`. -/
def constraintTexts (σ : Scheme) : List String :=
  (σ.vars.filter fun v => !v.labels.isEmpty).map fun v => v.name ++ "\\" ++ v.constraint.render

/-- The text of a scheme: `forall names. (constraints) => body`, without the parts that would
be empty. -/
def render (σ : Scheme) : String :=
  if σ.vars.isEmpty then σ.body.render
  else
    "forall " ++ " ".intercalate (σ.vars.map TyVar.name) ++ ". " ++
      (if σ.constraintTexts.isEmpty then ""
        else "(" ++ ", ".intercalate σ.constraintTexts ++ ") => ") ++
      σ.body.render

end Scheme

end RowTyping
