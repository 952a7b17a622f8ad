import RowTyping.Outcome
import RowTyping.Proofs.Failures
import RowTyping.Proofs.Infer.Relation

/-!
# The slot for the last failure, over whole runs

Inference fails at a name that is not in scope and where unification fails, and nowhere else, so it
keeps the record as unification does (`inferWith_keepsRecord`). Whatever the end of a computation,
the count of issued variables never goes back (`CountsUp`). An outcome is then read off the run of
`typeOfWith`: the failure that it reports is the one that the run has recorded already
(`outcomeOfWith_apply`). None of this depends on how `let` makes its schemes.
-/

namespace RowTyping

open InferM

/-! ## The record -/

theorem freshCopies_keepsRecord (vs : List TyVar) (s : Subst) : KeepsRecord (freshCopies vs s) := by
  induction vs generalizing s with
  | nil => exact .pure s
  | cons v vs ih => exact (KeepsRecord.freshWith _ _).bind fun _ => ih _

theorem Scheme.instantiate_keepsRecord (σ : Scheme) : KeepsRecord σ.instantiate :=
  (freshCopies_keepsRecord σ.vars .empty).bind fun _ => .pure _

theorem Prim.infer_keepsRecord (p : Prim) : KeepsRecord p.infer := by
  -- The three operations on records issue the same two variables and differ in what they return.
  have hop : ∀ (l : String) (f : TyVar → TyVar → Ty),
      KeepsRecord (do let a ← freshType; let r ← freshRow (.singleton l); return f a r) := by
    intro l f
    exact KeepsRecord.freshType.bind fun _ => (KeepsRecord.freshRow _).bind fun _ => .pure _
  cases p with
  | int n => exact .pure _
  | bool b => exact .pure _
  | emptyRecord => exact .pure _
  | select l => exact hop l fun a r => .fn (.record (.rowExtend l (.var a) (.var r))) (.var a)
  | extend l =>
    exact hop l fun a r =>
      .fn (.var a) (.fn (.record (.var r)) (.record (.rowExtend l (.var a) (.var r))))
  | restrict l =>
    exact hop l fun a r => .fn (.record (.rowExtend l (.var a) (.var r))) (.record (.var r))
  | hole => exact .throw fun _ => rfl

theorem inferWith_keepsRecord (gen : Env → Ty → Scheme) (Γ : Env) (e : Expr) :
    KeepsRecord (inferWith gen Γ e) := by
  induction e generalizing Γ with
  | var x =>
    refine (KeepsRecord.trace _).bind fun _ => ?_
    split
    · next σ _ => exact σ.instantiate_keepsRecord.bind fun _ => .pure _
    · exact .fail _
  | prim p => exact (KeepsRecord.trace _).bind fun _ => p.infer_keepsRecord.bind fun _ => .pure _
  | app f a ihf iha =>
    refine (KeepsRecord.trace _).bind fun _ => (ihf Γ).bind fun r₁ => (iha _).bind fun r₂ => ?_
    exact KeepsRecord.freshType.bind fun v => (unifyWithin_keepsRecord _ _ _).bind fun _ => .pure _
  | abs x e ih =>
    refine (KeepsRecord.trace _).bind fun _ => KeepsRecord.freshType.bind fun v => ?_
    exact (ih _).bind fun _ => .pure _
  | letIn x e₁ e₂ ih₁ ih₂ =>
    refine (KeepsRecord.trace _).bind fun _ => (ih₁ Γ).bind fun r₁ => ?_
    exact (ih₂ _).bind fun _ => .pure _
  | hole => exact (KeepsRecord.trace _).bind fun _ => .throw fun _ => rfl

theorem typeOfWith_keepsRecord (gen : Env → Ty → Scheme) (Γ : Env) (e : Expr) :
    KeepsRecord (typeOfWith gen Γ e) :=
  (inferWith_keepsRecord gen Γ e).bind fun _ => .pure _

/-! ## The count -/

/-- Whatever the state, the computation ends with at least as many variables issued. -/
def CountsUp {α : Type} (x : InferM α) : Prop :=
  ∀ cfg st, match x cfg st with
    | .ok _ st' => st.issued ≤ st'.issued
    | .error _ st' => st.issued ≤ st'.issued

/-- A run whose issued variables are known counts them. -/
theorem CountsUp.of_yields {α : Type} {x : InferM α} {Q : Config → Nat → List TyVar → α → Prop}
    {E : Config → Nat → List TyVar → Fault → Prop}
    (h : ∀ cfg n, Yields cfg x n (Q cfg n) (E cfg n)) : CountsUp x := by
  intro cfg st
  have hrun := h cfg st.issued
  cases hx : x cfg st with
  | ok a st' =>
    have hi := (hrun.of_ok rfl hx).2.issued
    simp only
    omega
  | error f st' =>
    have hi := (hrun.of_error rfl hx).2.issued
    simp only
    omega

/-! ## Outcomes -/

/-- An outcome reports how `typeOfWith` ends and leaves the state as it is. -/
theorem outcomeOfWith_apply (gen : Env → Ty → Scheme) (Γ : Env) (e : Expr) (cfg : Config)
    (st : RunState) : outcomeOfWith gen Γ e cfg st = match typeOfWith gen Γ e cfg st with
      | .ok t st' => .ok ⟨some t, none⟩ st'
      | .error (.infer err) st' => .ok ⟨none, some err⟩ st'
      | .error f st' => .error f st' := by
  unfold outcomeOfWith
  rw [bind_apply]
  unfold attempt
  cases hx : typeOfWith gen Γ e cfg st with
  | ok t st' => rfl
  | error f st' =>
    cases f with
    | infer err =>
      -- The run has recorded the error before, so recording it again changes nothing.
      have hrec : st'.error = some err := (typeOfWith_keepsRecord gen Γ e).of_error hx
      have hst : { st' with error := some err } = st' := by rw [← hrec]
      simp only [hst]
      rfl
    | _ => rfl

/-- Whatever the state, unification and inference leave the slot for the last failure as it is,
unless they end with an inference error, and then it holds that error; and they never count back.
So an outcome in a run of its own has a type or an error and not both, and the slot holds its error;
where there is no outcome, the slot is empty, and the fault is no inference error. The bound `d` on
the depth and the schemes that `gen` makes for `let` may be any: `unify t₁ t₂` is the case of
`unifyDepth t₁ t₂`, and `infer`, `typeOf` and `outcomeOf` are that of `Env.generalize`. -/
theorem failures_recorded (d : Nat) (t₁ t₂ : Ty) (gen : Env → Ty → Scheme) (Γ : Env) (e : Expr) :
    (KeepsRecord (unifyWithin d t₁ t₂) ∧ CountsUp (unifyWithin d t₁ t₂)) ∧
      (KeepsRecord (inferWith gen Γ e) ∧ CountsUp (inferWith gen Γ e)) ∧
      (KeepsRecord (typeOfWith gen Γ e) ∧ CountsUp (typeOfWith gen Γ e)) ∧
      ∀ cfg : Config, match outcomeOfWith gen Γ e cfg {} with
        | .ok o st' => o.type.isSome = !o.error.isSome ∧ st'.error = o.error
        | .error f st' => (∀ err, f ≠ .infer err) ∧ st'.error = none := by
  refine ⟨⟨unifyWithin_keepsRecord d t₁ t₂, ?_⟩, ⟨inferWith_keepsRecord gen Γ e, ?_⟩,
    ⟨typeOfWith_keepsRecord gen Γ e, ?_⟩, fun cfg => ?_⟩
  · exact .of_yields fun cfg n => unifyWithin_yields cfg d n t₁ t₂
  · exact .of_yields fun cfg n => inferWith_yields gen cfg n Γ e
  · exact .of_yields fun cfg n => typeOfWith_yields gen cfg n Γ e
  · rw [outcomeOfWith_apply]
    cases hx : typeOfWith gen Γ e cfg {} with
    | ok t st' => exact ⟨rfl, (typeOfWith_keepsRecord gen Γ e).of_ok hx⟩
    | error f st' =>
      have hrec := (typeOfWith_keepsRecord gen Γ e).of_error hx
      cases f with
      | infer err => exact ⟨rfl, hrec⟩
      | _ =>
        refine ⟨?_, hrec⟩
        intro err h
        cases h

end RowTyping
