import RowTyping.Proofs.Runs

/-!
# Two runs side by side

`Twins cfg n x cfg' n' x' Q E` compares two computations, each with its own stems and its own number
of variables issued before: both succeed, and then `Q` holds of what they issue and return, or both
fail, and then `E` holds of what they issue and of their faults. The rules are those of single runs
(`Yields`), taken twice. They keep the two runs in step without a word about their states, so that a
program can be compared with itself, run from elsewhere, or with a program of the same shape.
-/

namespace RowTyping

open InferM

/-- Both computations succeed and satisfy `Q`, or both fail and satisfy `E`. -/
inductive Twins (cfg : Config) {α β : Type} (n : Nat) (x : InferM α) (cfg' : Config) (n' : Nat)
    (x' : InferM β) (Q : List TyVar → List TyVar → α → β → Prop)
    (E : List TyVar → List TyVar → Fault → Fault → Prop) : Prop
  | ok {vs vs' : List TyVar} {a : α} {b : β} : Ends cfg x n vs (.ok a) →
      Ends cfg' x' n' vs' (.ok b) → Q vs vs' a b → Twins cfg n x cfg' n' x' Q E
  | error {vs vs' : List TyVar} {f f' : Fault} : Ends cfg x n vs (.error f) →
      Ends cfg' x' n' vs' (.error f') → E vs vs' f f' → Twins cfg n x cfg' n' x' Q E

namespace Twins

variable {cfg cfg' : Config} {n n' : Nat} {α β γ δ : Type} {x : InferM α} {x' : InferM β}

section

variable {Q Q' : List TyVar → List TyVar → α → β → Prop}
  {E E' : List TyVar → List TyVar → Fault → Fault → Prop}

theorem mono (h : Twins cfg n x cfg' n' x' Q E) (hQ : ∀ vs vs' a b, Q vs vs' a b → Q' vs vs' a b)
    (hE : ∀ vs vs' f f', E vs vs' f f' → E' vs vs' f f') : Twins cfg n x cfg' n' x' Q' E' := by
  cases h with
  | ok hx hx' h => exact .ok hx hx' (hQ _ _ _ _ h)
  | error hx hx' h => exact .error hx hx' (hE _ _ _ _ h)

theorem pure {a : α} {b : β} (h : Q [] [] a b) :
    Twins cfg n (pure a : InferM α) cfg' n' (pure b : InferM β) Q E :=
  .ok (.pure a) (.pure b) h

theorem throw {f f' : Fault} (h : E [] [] f f') :
    Twins cfg n (throw f : InferM α) cfg' n' (throw f' : InferM β) Q E :=
  .error (.throw f) (.throw f') h

theorem fail {e e' : InferError} (h : E [] [] (.infer e) (.infer e')) :
    Twins cfg n (fail e : InferM α) cfg' n' (fail e' : InferM β) Q E :=
  .error (.fail e) (.fail e') h

theorem freshType {Q : List TyVar → List TyVar → TyVar → TyVar → Prop}
    (h : Q [cfg.typeVar n] [cfg'.typeVar n'] (cfg.typeVar n) (cfg'.typeVar n')) :
    Twins cfg n freshType cfg' n' freshType Q E :=
  .ok (Ends.freshWith .free cfg.typeStem) (Ends.freshWith .free cfg'.typeStem) h

theorem freshRow {ls : Labels} {Q : List TyVar → List TyVar → TyVar → TyVar → Prop}
    (h : Q [cfg.rowVar n ls] [cfg'.rowVar n' ls] (cfg.rowVar n ls) (cfg'.rowVar n' ls)) :
    Twins cfg n (freshRow ls) cfg' n' (freshRow ls) Q E :=
  .ok (Ends.freshWith (.lacks ls) cfg.rowStem) (Ends.freshWith (.lacks ls) cfg'.rowStem) h

/-- What is known of the single runs may be used to compare them. -/
theorem with_yields {P : List TyVar → α → Prop} {P' : List TyVar → β → Prop}
    {F F' : List TyVar → Fault → Prop} (h : Twins cfg n x cfg' n' x' Q E) (hx : Yields cfg x n P F)
    (hx' : Yields cfg' x' n' P' F') :
    Twins cfg n x cfg' n' x' (fun vs vs' a b => Q vs vs' a b ∧ P vs a ∧ P' vs' b) E := by
  cases h with
  | ok he he' h => exact .ok he he' ⟨h, hx.of_ends_ok he, hx'.of_ends_ok he'⟩
  | error he he' h => exact .error he he' h

end

section

variable {P : List TyVar → List TyVar → α → β → Prop}
  {F : List TyVar → List TyVar → Fault → Fault → Prop} {k : α → InferM γ} {k' : β → InferM δ}
  {Q : List TyVar → List TyVar → γ → δ → Prop} {E : List TyVar → List TyVar → Fault → Fault → Prop}

/-- Two runs that go on in step behind two runs in step. -/
theorem bind (hx : Twins cfg n x cfg' n' x' P F)
    (hk : ∀ vs vs' a b, P vs vs' a b →
      Twins cfg (n + vs.length) (k a) cfg' (n' + vs'.length) (k' b)
        (fun ws ws' => Q (vs ++ ws) (vs' ++ ws')) fun ws ws' => E (vs ++ ws) (vs' ++ ws'))
    (hF : ∀ vs vs' f f', F vs vs' f f' → E vs vs' f f') :
    Twins cfg n (x >>= k) cfg' n' (x' >>= k') Q E := by
  cases hx with
  | error hx hx' h => exact .error hx.bind_error hx'.bind_error (hF _ _ _ _ h)
  | ok hx hx' h =>
    cases hk _ _ _ _ h with
    | ok hy hy' h => exact .ok (hx.bind_ok hy) (hx'.bind_ok hy') h
    | error hy hy' h => exact .error (hx.bind_ok hy) (hx'.bind_ok hy') h

/-- Traced steps that issue nothing may stand in front. -/
theorem trace_bind {e e' : TraceEvent} (he : e.freshVar? = none) (he' : e'.freshVar? = none)
    {y : InferM γ} {y' : InferM δ} (h : Twins cfg n y cfg' n' y' Q E) :
    Twins cfg n (trace e >>= fun _ => y) cfg' n' (trace e' >>= fun _ => y') Q E := by
  cases h with
  | ok hy hy' h => exact .ok ((Ends.trace he).bind_ok hy) ((Ends.trace he').bind_ok hy') h
  | error hy hy' h => exact .error ((Ends.trace he).bind_ok hy) ((Ends.trace he').bind_ok hy') h

theorem freshType_bind {k : TyVar → InferM γ} {k' : TyVar → InferM δ}
    (h : Twins cfg (n + 1) (k (cfg.typeVar n)) cfg' (n' + 1) (k' (cfg'.typeVar n'))
      (fun ws ws' => Q (cfg.typeVar n :: ws) (cfg'.typeVar n' :: ws'))
      fun ws ws' => E (cfg.typeVar n :: ws) (cfg'.typeVar n' :: ws')) :
    Twins cfg n (InferM.freshType >>= k) cfg' n' (InferM.freshType >>= k') Q E := by
  refine (freshType (Q := fun vs vs' a b => vs = [a] ∧ vs' = [b] ∧ a = cfg.typeVar n ∧
    b = cfg'.typeVar n') ⟨rfl, rfl, rfl, rfl⟩).bind ?_ fun _ _ _ _ hf => hf
  rintro _ _ _ _ ⟨rfl, rfl, rfl, rfl⟩
  exact h

end

end Twins

/-! ## Equal runs -/

/-- The two computations issue the same variables and end in the same way. -/
def Agrees (cfg : Config) {α : Type} (n : Nat) (x x' : InferM α) : Prop :=
  Twins cfg n x cfg n x' (fun vs vs' a b => vs' = vs ∧ b = a) fun vs vs' f f' => vs' = vs ∧ f' = f

namespace Agrees

variable {cfg : Config} {n : Nat} {α β : Type} {x x' : InferM α} {P P' : List TyVar → α → Prop}
  {F F' : List TyVar → Fault → Prop}

theorem refl (h : Yields cfg x n P F) : Agrees cfg n x x := by
  obtain ⟨vs, r, -, hrun⟩ := h
  cases r with
  | ok a => exact .ok hrun hrun ⟨rfl, rfl⟩
  | error f => exact .error hrun hrun ⟨rfl, rfl⟩

theorem symm (h : Agrees cfg n x x') : Agrees cfg n x' x := by
  cases h with
  | ok hx hx' h => exact .ok hx' hx ⟨h.1.symm, h.2.symm⟩
  | error hx hx' h => exact .error hx' hx ⟨h.1.symm, h.2.symm⟩

theorem bind {k k' : α → InferM β} (h : Agrees cfg n x x') (hx : Yields cfg x n P F)
    (hx' : Yields cfg x' n P' F')
    (hk : ∀ vs a, P vs a → P' vs a → Agrees cfg (n + vs.length) (k a) (k' a)) :
    Agrees cfg n (x >>= k) (x' >>= k') := by
  refine (h.with_yields hx hx').bind ?_ fun _ _ _ _ hf => hf
  rintro vs' vs b a ⟨⟨rfl, rfl⟩, hP, hP'⟩
  refine (hk vs a hP hP').mono ?_ ?_
  · rintro ws _ b _ ⟨rfl, rfl⟩
    exact ⟨rfl, rfl⟩
  · rintro ws _ f _ ⟨rfl, rfl⟩
    exact ⟨rfl, rfl⟩

theorem freshType_bind {k k' : TyVar → InferM β}
    (h : Agrees cfg (n + 1) (k (cfg.typeVar n)) (k' (cfg.typeVar n))) :
    Agrees cfg n (freshType >>= k) (freshType >>= k') := by
  refine Twins.freshType_bind (h.mono ?_ ?_)
  · rintro ws _ b _ ⟨rfl, rfl⟩
    exact ⟨rfl, rfl⟩
  · rintro ws _ f _ ⟨rfl, rfl⟩
    exact ⟨rfl, rfl⟩

/-- How the one ends is how the other ends. -/
theorem ends {vs : List TyVar} {r : Except Fault α} (h : Agrees cfg n x x')
    (hx : Ends cfg x n vs r) : Ends cfg x' n vs r := by
  cases h with
  | ok hy hy' h =>
    obtain ⟨rfl, rfl⟩ := h
    obtain ⟨rfl, rfl⟩ := hx.unique hy
    exact hy'
  | error hy hy' h =>
    obtain ⟨rfl, rfl⟩ := h
    obtain ⟨rfl, rfl⟩ := hx.unique hy
    exact hy'

end Agrees

end RowTyping
