import RowTyping.Proofs.Infer.Kinds
import RowTyping.Proofs.Infer.Supply
import RowTyping.Proofs.Readings

/-!
# No variable is captured

Substitution into a scheme leaves the quantified variables alone but does not rename them, so a type
that is put in could be captured. In a run this does not happen. What inference puts into an
environment was free in it before, or is new (`Inferred.reaches`); the schemes that `let` makes
quantify variables that are neither (`Env.Uncaptured`). So the readings of an environment after
inference are those of the environment before, with other values (`Env.Uncaptured.reading_subst`).
In such environments, unification never meets the bound on its depth
(`Rejected.ne_outOfFuel_of_uncaptured`).
-/

namespace RowTyping

namespace Env

/-- The variable is free in the environment, or can be issued after `n` others. -/
def Reaches (Γ : Env) (n : Nat) (v : TyVar) : Prop := v ∈ Γ.freeVars ∨ ¬v.Past n

/-- No scheme of the environment captures a variable when `n` variables have been issued. -/
structure Uncaptured (Γ : Env) (n : Nat) : Prop where
  past : Γ.Over (·.Past n)
  apart : ∀ x σ, Γ.get? x = some σ →
    σ.freeVars = .empty ∨ ∀ v ∈ σ.vars, v.Past n ∧ v ∉ Γ.freeVars

theorem Closed.uncaptured {Γ : Env} (h : Γ.Closed) (n : Nat) : Γ.Uncaptured n where
  past := h.over
  apart x σ hx := .inl (h σ (OrderedMap.mem_values_iff.2 ⟨x, hx⟩))

namespace Uncaptured

variable {Γ : Env} {n m : Nat} (h : Γ.Uncaptured n)

include h

theorem not_reaches {x : String} {σ : Scheme} (hx : Γ.get? x = some σ) :
    σ.freeVars = .empty ∨ ∀ v ∈ σ.vars, ¬Γ.Reaches n v :=
  (h.apart x σ hx).imp id fun hq v hv hr => hr.elim (hq v hv).2 fun hn => hn (hq v hv).1

theorem extend (x : String) {σ : Scheme} (hnm : n ≤ m) (hσ : σ.Over (·.Past m))
    (hr : σ.Over (Γ.Reaches n)) (hq : ∀ v ∈ σ.vars, v.Past m ∧ v ∉ Γ.freeVars) :
    (Γ.extend x σ).Uncaptured m where
  past := Over.extend (fun v hv => (h.past v hv).mono hnm) x hσ
  apart y τ hy := by
    rw [get?_extend] at hy
    split at hy
    · cases hy
      refine .inr fun v hv => ⟨(hq v hv).1, fun hf => ?_⟩
      exact (mem_freeVars_extend hf).elim (hq v hv).2 fun hf => (Scheme.mem_freeVars.1 hf).2 hv
    · refine (h.apart y τ hy).imp id fun hv v hm => ⟨(hv v hm).1.mono hnm, fun hf => ?_⟩
      refine (mem_freeVars_extend hf).elim (hv v hm).2 fun hf => ?_
      exact (hr v hf).elim (hv v hm).2 fun hn => hn (hv v hm).1

theorem subst {s : Subst} (hnm : n ≤ m) (hs : s.Over (·.Past m)) (hr : s.Over (Γ.Reaches n)) :
    (Γ.subst s).Uncaptured m where
  past := Over.subst (fun v hv => (h.past v hv).mono hnm) hs
  apart x τ hx := by
    rw [get?_subst] at hx
    obtain ⟨σ, hσ, rfl⟩ := Option.map_eq_some_iff.1 hx
    have hΓ : (Γ.subst s).Over (Γ.Reaches n) := Over.subst (fun v hv => .inl hv) hr
    rcases h.apart x σ hσ with hc | hq
    · refine .inl (OrdSet.ext fun v => ?_)
      rw [Scheme.mem_freeVars_subst, hc]
      simp
    · refine .inr fun v hv => ⟨(hq v hv).1.mono hnm, fun hf => ?_⟩
      exact (hΓ v hf).elim (hq v hv).2 fun hn => hn (hq v hv).1

/-- The readings of the schemes of a substituted environment. -/
theorem reading_subst {s : Subst} (hs : s.Respects) (hr : s.Over (Γ.Reaches n)) {x : String}
    {σ : Scheme} (hx : Γ.get? x = some σ) {φ : Valuation} {τ : Ty} :
    (σ.subst s).Reading φ τ ↔ σ.Reading (φ.after s hs) τ := by
  refine Scheme.reading_subst hs fun v hv u hu hm => ?_
  rcases h.not_reaches hx with hc | hq
  · rw [hc] at hv
    exact OrdSet.not_mem_empty v hv
  · have hv : (Ty.var v).Over (Γ.Reaches n) :=
      Ty.over_var.2 (.inl (mem_freeVars.2 ⟨x, σ, hx, hv⟩))
    exact hq u hm (hv.subst hr u hu)

end Uncaptured

end Env

/-! ## The environments of a run -/

section Run

variable {cfg : Config} (hcfg : cfg.SingleStems) {n : Nat} {Γ : Env} {e : Expr}
  {vs : List TyVar} {s : Subst} {t : Ty} (h : Inferred Env.generalize cfg n Γ e vs s t)

include hcfg h

theorem Inferred.reaches : s.Over (Γ.Reaches n) ∧ t.Over (Γ.Reaches n) :=
  h.over (fun _ hv => .inl hv) fun _ hv => .inr fun hp => hp.not_issued (h.namedFrom hcfg) hv

theorem Inferred.uncaptured (hΓ : Γ.Uncaptured n) :
    (Γ.subst s).Uncaptured (n + vs.length) :=
  hΓ.subst (Nat.le_add_right ..) (h.past hcfg hΓ.past).1 (h.reaches hcfg).1

/-- The body of a `let` is typed in the substituted environment with the generalized type. -/
theorem Inferred.let_env (hΓ : Γ.Over (·.Past n)) (x : String) :
    (Γ.extend x ((Γ.subst s).generalize t)).subst s =
      (Γ.subst s).extend x ((Γ.subst s).generalize t) := by
  rw [Env.subst_extend]
  congr 1
  refine congrArg (Scheme.mk _) (Ty.subst_eq_self fun v hv hk => ?_)
  rw [OrderedMap.keys_filterKeys] at hk
  exact (h.solved hcfg hΓ).2 v hv (List.mem_of_mem_filter hk)

theorem Inferred.let_uncaptured (hΓ : Γ.Uncaptured n) (x : String) :
    ((Γ.subst s).extend x ((Γ.subst s).generalize t)).Uncaptured (n + vs.length) := by
  have ht := (h.past hcfg hΓ.past).2
  refine (h.uncaptured hcfg hΓ).extend x (Nat.le_refl _) (Env.over_generalize ht)
    (fun v hv => .inl (Env.mem_freeVars_generalize.1 hv).2) fun v hv => ?_
  obtain ⟨hv, hΓv⟩ := Env.mem_generalize_vars.1 hv
  exact ⟨ht v hv, hΓv⟩

end Run

theorem Env.Uncaptured.extend_typeVar {cfg : Config} (hcfg : cfg.SingleStems) {n : Nat} {Γ : Env}
    (h : Γ.Uncaptured n) (x : String) :
    (Γ.extend x (.mono (.var (cfg.typeVar n)))).Uncaptured (n + 1) := by
  refine h.extend x (Nat.le_succ n) ?_ ?_ fun v hv => by cases hv
  · exact Scheme.over_mono.2 (Ty.over_var.2 (TyVar.typeVar_past hcfg))
  · exact Scheme.over_mono.2 (Ty.over_var.2 (.inr fun hp => hp.ne_typeVar hcfg rfl))

/-! ## Depth -/

section Depth

variable {cfg : Config} (hcfg : cfg.SingleStems) {n : Nat} {Γ : Env} (hΓ : Γ.Uncaptured n)
  {e : Expr} {vs : List TyVar}

include hcfg hΓ

/-- Schemes need not be well kinded for the bound on the depth of unification to be never met: it is
enough that names are not issued twice. -/
theorem Rejected.ne_outOfFuel_of_uncaptured {f : Fault}
    (h : Rejected Env.generalize cfg n Γ e vs f) : f ≠ .outOfFuel := by
  induction h with
  | unbound => exact fun hf => by cases hf
  | prim => exact fun hf => by cases hf
  | hole => exact fun hf => by cases hf
  | appFunc _ ih => exact ih hΓ
  | appArg h₁ _ ih => exact ih (h₁.uncaptured hcfg hΓ)
  | appUnify h₁ h₂ hr =>
    exact hr.ne_outOfFuel (.inr ⟨hcfg, h₁.app_stale hcfg h₂ hΓ.past⟩)
  | abs _ ih => exact ih (hΓ.extend_typeVar hcfg _)
  | letBound _ ih => exact ih hΓ
  | letBody h₁ _ ih =>
    refine ih ?_
    rw [h₁.let_env hcfg hΓ.past]
    exact h₁.let_uncaptured hcfg hΓ _

theorem infer_ends_ne_outOfFuel {r : Except Fault (Subst × Ty)} (h : Ends cfg (infer Γ e) n vs r) :
    r ≠ .error .outOfFuel := by
  rintro rfl
  exact ((infer_yields ..).of_ends_error h).ne_outOfFuel_of_uncaptured hcfg hΓ rfl

theorem typeOf_ends_ne_outOfFuel {r : Except Fault Ty} (h : Ends cfg (typeOf Γ e) n vs r) :
    r ≠ .error .outOfFuel := by
  obtain ⟨ws, r', -, hrun⟩ := infer_yields cfg n Γ e
  obtain ⟨-, rfl⟩ := h.unique (typeOf_ends hcfg hΓ.past hrun)
  have hr := infer_ends_ne_outOfFuel hcfg hΓ hrun
  cases r' with
  | ok p => exact fun hf => by cases hf
  | error f =>
    intro hf
    cases hf
    exact hr rfl

end Depth

end RowTyping
