import RowTyping.Unify
import RowTyping.Proofs.Runs

/-!
# The slot for the last failure

A run remembers its last failure. `KeepsRecord x` says that the computation `x` writes to that slot
only to fail: if it ends with an inference error, the slot holds that error, and if it ends in any
other way, with a result or with another fault, the slot is as before. Sequences keep the record if
their parts do (`KeepsRecord.bind`), so it is enough to look at the places where a computation
fails. Unification keeps the record at every depth (`unifyWithin_keepsRecord`).
-/

namespace RowTyping

open InferM

/-- The last failure after a fault: the fault itself if it is an inference error, else the one
before. -/
def Fault.lastFailure (before : Option InferError) : Fault → Option InferError
  | infer e => some e
  | _ => before

/-- Whatever the state, the slot for the last failure changes only with an inference error, and
then holds it. -/
def KeepsRecord {α : Type} (x : InferM α) : Prop :=
  ∀ cfg st, match x cfg st with
    | .ok _ st' => st'.error = st.error
    | .error f st' => st'.error = f.lastFailure st.error

/-! ## Rules -/

namespace KeepsRecord

variable {α β : Type}

theorem pure (a : α) : KeepsRecord (pure a) := fun _ _ => rfl

/-- A fault that is no inference error is thrown without being recorded. -/
theorem throw {f : Fault} (hf : ∀ before, f.lastFailure before = before) :
    KeepsRecord (throw f : InferM α) := fun _ st => (hf st.error).symm

theorem fail (e : InferError) : KeepsRecord (fail e : InferM α) := by
  intro cfg st
  rw [fail_apply]
  show (if cfg.trace then _ else _ : RunState).error = some e
  split <;> rfl

theorem trace (e : TraceEvent) : KeepsRecord (trace e) := by
  intro cfg st
  rw [trace_apply]
  show (if cfg.trace then _ else _ : RunState).error = st.error
  split <;> rfl

theorem freshWith (c : Constraint) (stem : String) : KeepsRecord (freshWith c stem) := by
  intro cfg st
  rw [freshWith_apply]
  show (if cfg.trace then _ else _ : RunState).error = st.error
  split <;> rfl

theorem freshType : KeepsRecord freshType := fun cfg => freshWith .free cfg.typeStem cfg

theorem freshRow (ls : Labels) : KeepsRecord (freshRow ls) :=
  fun cfg => freshWith (.lacks ls) cfg.rowStem cfg

theorem bind {x : InferM α} {f : α → InferM β} (hx : KeepsRecord x) (hf : ∀ a, KeepsRecord (f a)) :
    KeepsRecord (x >>= f) := by
  intro cfg st
  have hx := hx cfg st
  rw [bind_apply]
  cases h : x cfg st with
  | error e st' =>
    rw [h] at hx
    exact hx
  | ok a st' =>
    rw [h] at hx
    have hx : st'.error = st.error := hx
    rw [← hx]
    exact hf a cfg st'

/-- A computation that returns leaves the slot alone. -/
theorem of_ok {x : InferM α} (h : KeepsRecord x) {cfg : Config} {st st' : RunState} {a : α}
    (hx : x cfg st = .ok a st') : st'.error = st.error := by
  have hst := h cfg st
  rw [hx] at hst
  exact hst

theorem of_error {x : InferM α} (h : KeepsRecord x) {cfg : Config} {st st' : RunState} {f : Fault}
    (hx : x cfg st = .error f st') : st'.error = f.lastFailure st.error := by
  have hst := h cfg st
  rw [hx] at hst
  exact hst

end KeepsRecord

/-! ## Unification -/

theorem properRow_keepsRecord (t : Ty) : KeepsRecord (properRow t) := by
  unfold properRow
  split
  · exact .pure _
  · exact .fail _
  · exact .throw fun _ => rfl

theorem mergeVars_keepsRecord (u v : TyVar) : KeepsRecord (mergeVars u v) := by
  unfold mergeVars
  split
  · exact .pure _
  · split
    · exact .pure _
    · exact (KeepsRecord.freshRow _).bind fun _ => .pure _

theorem bindVar_keepsRecord (u : TyVar) (t : Ty) : KeepsRecord (bindVar u t) := by
  unfold bindVar bindRow
  split
  · exact .fail _
  · split
    · exact .pure _
    · split
      · exact .fail _
      · refine (properRow_keepsRecord t).bind fun row => ?_
        dsimp only
        split
        · exact .fail _
        · split
          · exact .pure _
          · exact (KeepsRecord.freshRow _).bind fun _ => .pure _

theorem expose_keepsRecord (row : Ty) (label : String) : KeepsRecord (expose row label) := by
  induction row with
  | rowExtend other field tail _ ih =>
    unfold expose
    refine (KeepsRecord.trace _).bind fun _ => ?_
    dsimp only
    split
    · exact .pure _
    · split
      · split
        · exact .fail _
        · exact (KeepsRecord.freshRow _).bind fun _ => KeepsRecord.freshType.bind fun _ => .pure _
      · exact ih.bind fun _ => .pure _
  | rowEmpty => exact (KeepsRecord.trace _).bind fun _ => .fail _
  | _ => exact (KeepsRecord.trace _).bind fun _ => .throw fun _ => rfl

section Step

variable {unify : Ty → Ty → InferM Subst} (hu : ∀ t₁ t₂, KeepsRecord (unify t₁ t₂))

include hu in
theorem unifyRows_keepsRecord (label : String) (field tail row : Ty) :
    KeepsRecord (unifyRows unify label field tail row) := by
  unfold unifyRows
  refine (properRow_keepsRecord _).bind fun row₁ => (properRow_keepsRecord _).bind fun _ => ?_
  refine (expose_keepsRecord row label).bind fun e => ?_
  dsimp only
  split
  · exact .fail _
  · exact (hu _ _).bind fun _ => (hu _ _).bind fun _ => .pure _

include hu in
theorem unifyStep_keepsRecord (t₁ t₂ : Ty) : KeepsRecord (unifyStep unify t₁ t₂) := by
  unfold unifyStep
  refine (KeepsRecord.trace _).bind fun _ => ?_
  split
  · exact (hu _ _).bind fun _ => (hu _ _).bind fun _ => .pure _
  · exact mergeVars_keepsRecord _ _
  · exact bindVar_keepsRecord _ _
  · exact bindVar_keepsRecord _ _
  · exact .pure _
  · exact .pure _
  · exact .pure _
  · exact hu _ _
  · exact unifyRows_keepsRecord hu _ _ _ _
  · exact unifyRows_keepsRecord hu _ _ _ _
  · exact .fail _

end Step

theorem unifyWithin_keepsRecord (d : Nat) (t₁ t₂ : Ty) : KeepsRecord (unifyWithin d t₁ t₂) := by
  induction d generalizing t₁ t₂ with
  | zero => exact .throw fun _ => rfl
  | succ d ih => exact unifyStep_keepsRecord ih t₁ t₂

end RowTyping
