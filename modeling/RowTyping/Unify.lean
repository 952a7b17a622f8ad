import RowTyping.Run
import RowTyping.Subst

/-! # Unification

`unify t₁ t₂` looks for a substitution that makes two types the same up to the
order of differently labelled fields. Functions are unified from left to right;
rows are unified by bringing the first label of one row to the front of the
other (`expose`).

Recursion follows an explicit bound on its depth. `unify` computes the bound
from the types: a run that issues variables which do not occur in them stays
below it. -/

namespace RowTyping

open InferM

/-- Hands over the parts of a proper row. A repeated label is a failure of the run. -/
def properRow (t : Ty) : InferM Row :=
  match t.decompose with
  | .ok r => return r
  | .error (.repeated l) => fail (.duplicateLabels (.singleton l))
  | .error (.badEnd e) => throw (.notARow .decompose e)

/-- Makes two variables stand for the same. If one of them is constrained, both give way to a
fresh row variable that lacks what either lacks. -/
def mergeVars (u v : TyVar) : InferM Subst :=
  if u = v then return .empty
  else if u.constraint = .free ∧ v.constraint = .free then return .singleton u (.var v)
  else do
    let r ← freshRow (u.labels ∪ v.labels)
    return (OrderedMap.singleton u (Ty.var r)).insert v (.var r)

/-- Binds `u` to a row that holds none of `labels`. The end of an open row gives way to a fresh
variable that lacks them too. -/
def bindRow (labels : Labels) (u : TyVar) (t : Ty) : InferM Subst :=
  if !t.isRow then fail (.mismatch (.var u) t)
  else do
    let row ← properRow t
    let clash := labels ∩ row.labels
    if !clash.isEmpty then fail (.duplicateLabels clash)
    else
      match row.tail with
      | none => return .singleton u t
      | some w =>
        let r ← freshRow (labels ∪ w.labels)
        return Subst.compose (.singleton w (.var r)) (.singleton u t)

/-- Binds a variable to a type in which it does not occur, as far as its constraint admits. -/
def bindVar (u : TyVar) (t : Ty) : InferM Subst :=
  if u ∈ t.freeVars then fail (.occurs u t)
  else
    match u.constraint with
    | .free => return .singleton u t
    | .lacks ls => bindRow ls u t

/-- A row with one label at its front. -/
structure Exposed where
  /-- The type of the label's field. -/
  field : Ty
  /-- The row without that field. -/
  rest : Ty
  /-- What has to be substituted to bring the field into being. -/
  subst : Subst
  deriving DecidableEq

/-- Brings a label to the front of a row. The end of an open row that may still hold the label is
extended by a field of fresh type. -/
def expose (row : Ty) (label : String) : InferM Exposed := do
  trace (.expose label row)
  match row with
  | .rowEmpty => fail (.labelNotFound label)
  | .rowExtend other field tail =>
    if other = label then return ⟨field, tail, .empty⟩
    else
      match tail with
      | .var w =>
        if label ∈ w.labels then fail (.duplicateLabels (.singleton label))
        else
          let rest ← freshRow (w.labels ∪ .singleton label)
          let new ← freshType
          return ⟨.var new, .rowExtend other field (.var rest),
            .singleton w (.rowExtend label (.var new) (.var rest))⟩
      | _ =>
        let r ← expose tail label
        return { r with rest := .rowExtend other field r.rest }
  | t => throw (.notARow .expose t)

/-- Unifies a row that starts with a field with another row, by means of a unifier for smaller
types. If exposing the label bound the end of one of the two remaining rows, they cannot be made
equal. -/
def unifyRows (unify : Ty → Ty → InferM Subst) (label : String) (field tail row : Ty) :
    InferM Subst := do
  let row₁ ← properRow (.rowExtend label field tail)
  let _ ← properRow row
  let e ← expose row label
  let ends := row₁.tail.toList ++ e.rest.rowEndVar?.toList
  match ends.find? e.subst.contains with
  | some v => fail (.recursiveRow v)
  | none =>
    let s₁ ← unify (field.subst e.subst) (e.field.subst e.subst)
    let s := s₁.compose e.subst
    let s₂ ← unify (tail.subst s) (e.rest.subst s)
    return s₂.compose s

/-- One step of unification, by means of a unifier for smaller types. -/
def unifyStep (unify : Ty → Ty → InferM Subst) (t₁ t₂ : Ty) : InferM Subst := do
  trace (.unify t₁ t₂)
  match t₁, t₂ with
  | .fn a₁ r₁, .fn a₂ r₂ =>
    let s₁ ← unify a₁ a₂
    let s₂ ← unify (r₁.subst s₁) (r₂.subst s₁)
    return s₂.compose s₁
  | .var u, .var v => mergeVars u v
  | .var u, t => bindVar u t
  | t, .var v => bindVar v t
  | .int, .int | .bool, .bool | .rowEmpty, .rowEmpty => return .empty
  | .record r₁, .record r₂ => unify r₁ r₂
  | .rowExtend l f t, .rowExtend l' f' t' => unifyRows unify l f t (.rowExtend l' f' t')
  | .rowExtend l f t, .rowEmpty => unifyRows unify l f t .rowEmpty
  | t₁, t₂ => fail (.mismatch t₁ t₂)

/-- Unifies two types with at most `depth` calls inside one another. -/
def unifyWithin : (depth : Nat) → Ty → Ty → InferM Subst
  | 0 => fun _ _ => throw .outOfFuel
  | depth + 1 => unifyStep (unifyWithin depth)

/-- A bound on the depth of unification. Every unifier met on the way takes away a variable or
adds to what a variable lacks, so there are at most `n · (m + 2)` of them in a row, with `n`
variables and `m` labels; each may double the height of the types. -/
def unifyDepth (t₁ t₂ : Ty) : Nat :=
  let vars := (t₁.freeVars ∪ t₂.freeVars).size
  let labels := (t₁.fieldLabels ∪ t₂.fieldLabels).size
  (t₁.size + t₂.size + 1) * Nat.pow 2 ((vars + 1) * (labels + 2))

/-- The most general substitution that makes two types equal up to the order of fields. -/
def unify (t₁ t₂ : Ty) : InferM Subst := unifyWithin (unifyDepth t₁ t₂) t₁ t₂

/-- Adds an equation to a solved system: the answer solves it and all that `s` solves. -/
def solve (s : Subst) (t₁ t₂ : Ty) : InferM Subst := do
  let s' ← unify (t₁.subst s) (t₂.subst s)
  return s'.compose s

end RowTyping
