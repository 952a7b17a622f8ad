import RowTyping.Env
import RowTyping.Unify

/-! # Type inference

`infer env e` walks an expression from left to right and returns a substitution
for the variables of the environment together with the type of the expression.
The only place where types become polymorphic is `let`; `inferWith` leaves open how. -/

namespace RowTyping

open InferM

/-- The part of a variable's name that its instances keep: the first character. -/
def TyVar.stem (v : TyVar) : String := String.ofList (v.name.toList.take 1)

/-- Gives each variable of a list, in order, a fresh one with the same constraint. -/
def freshCopies : List TyVar → Subst → InferM Subst
  | [], s => return s
  | v :: vs, s => do
    let w ← freshWith v.constraint v.stem
    freshCopies vs (s.insert v (.var w))

/-- An instance of a scheme, with fresh variables in place of the quantified ones. -/
def Scheme.instantiate (σ : Scheme) : InferM Ty := do
  return σ.body.subst (← freshCopies σ.vars .empty)

/-- The type of a primitive. The operations on records work for a field of any type in any
row without that field. -/
def Prim.infer : Prim → InferM Ty
  | int _ => return .int
  | bool _ => return .bool
  | emptyRecord => return .record .rowEmpty
  | select l => do
    let a := Ty.var (← freshType)
    let r := Ty.var (← freshRow (.singleton l))
    return .fn (.record (.rowExtend l a r)) a
  | extend l => do
    let a := Ty.var (← freshType)
    let r := Ty.var (← freshRow (.singleton l))
    return .fn a (.fn (.record r) (.record (.rowExtend l a r)))
  | restrict l => do
    let a := Ty.var (← freshType)
    let r := Ty.var (← freshRow (.singleton l))
    return .fn (.record (.rowExtend l a r)) (.record r)
  | hole => throw .unknownPrim

/-- Infers the type of an expression, together with the substitution that inference brought
about. A name bound by `let` gets the scheme that `gen` makes of its type. -/
def inferWith (gen : Env → Ty → Scheme) (env : Env) (e : Expr) : InferM (Subst × Ty) := do
  trace (.visit e)
  match e with
  | .var x =>
    match env.get? x with
    | some σ => return (.empty, ← σ.instantiate)
    | none => fail (.unboundVariable x)
  | .prim p => return (.empty, ← p.infer)
  | .app f a =>
    let (s₁, t₁) ← inferWith gen env f
    let (s₂, t₂) ← inferWith gen (env.subst s₁) a
    let v := Ty.var (← freshType)
    let s₃ ← unify (t₁.subst s₂) (.fn t₂ v)
    return (s₃.compose (s₂.compose s₁), v.subst s₃)
  | .abs x body =>
    let v := Ty.var (← freshType)
    let (s, t) ← inferWith gen (env.extend x (.mono v)) body
    return (s, .fn (v.subst s) t)
  | .letIn x bound body =>
    let (s₁, t₁) ← inferWith gen env bound
    let σ := gen (env.subst s₁) t₁
    let (s₂, t₂) ← inferWith gen ((env.extend x σ).subst s₁) body
    return (s₂.compose s₁, t₂)
  | .hole => throw .unknownExpr

/-- The type of an expression, where `let` makes schemes by `gen`. -/
def typeOfWith (gen : Env → Ty → Scheme) (env : Env) (e : Expr) : InferM Ty := do
  let (s, t) ← inferWith gen env e
  return t.subst s

/-- Inference where `let` quantifies the variables that the environment does not mention. -/
def infer (env : Env) (e : Expr) : InferM (Subst × Ty) := inferWith Env.generalize env e

/-- The type of an expression. -/
def typeOf (env : Env) (e : Expr) : InferM Ty := typeOfWith Env.generalize env e

/-- The type of an expression, with all its variables quantified. -/
def principalScheme (env : Env) (e : Expr) : InferM Scheme := do
  return Env.generalize .empty (← typeOf env e)

end RowTyping
