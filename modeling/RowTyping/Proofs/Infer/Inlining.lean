import RowTyping.Proofs.Infer.Lockstep

/-!
# A `let` is typed like its inlining

In an environment of closed schemes, the type of a `let`-bound expression is generalized over all
its variables. Each use of the name then has a copy of that type, and the expression itself, put in
the place of the name, comes out with such a copy as well (`realizes_generalize`). So the `let` and
the expression with the definition inlined are typed in step, and what is found out about them is
the same up to renaming.
-/

namespace RowTyping

open InferM

section Let

variable {cfg : Config} (hcfg : cfg.SingleStems) {n : Nat} {Γ : Env} (hΓ : Γ.Closed) {x : String}
  {e₁ e₂ : Expr} {vs₁ : List TyVar} {s₁ : Subst} {t₁ : Ty}
  (h₁ : Ends cfg (infer Γ e₁) n vs₁ (.ok (s₁, t₁)))

include hcfg hΓ h₁

/-- An expression of closed type realizes the generalization of its type, in any run. -/
theorem realizes_generalize {cfg' : Config} (hcfg' : cfg'.SingleStems) :
    Realizes cfg' Γ e₁ (Γ.generalize t₁) where
  closed := hΓ.freeVars_generalize t₁
  ends m := by
    obtain ⟨M, hM⟩ := Matching.exists_initial hcfg hcfg' n m
    have hrun := infer_lockstep hcfg hcfg' hΓ (outOfTheWay_none e₁) hM (hΓ.uncaptured n)
      (hΓ.uncaptured m) (hΓ.linked cfg' M)
    rw [Expr.replace_none] at hrun
    cases hrun with
    | error hx _ _ => cases (h₁.unique hx).2
    | @ok vs vs' r r' hx hx' h =>
      cases (h₁.unique hx).2
      obtain ⟨-, M', -, -, -, -, ht⟩ := h
      exact ⟨vs', r'.1, M'.map, ht ▸ hx'⟩

/-- The body of a `let` is typed where its name has the generalized type. -/
theorem infer_letIn_ends {vs₂ : List TyVar} {r : Except Fault (Subst × Ty)}
    (h₂ : Ends cfg (infer (Γ.extend x (Γ.generalize t₁)) e₂) (n + vs₁.length) vs₂ r) :
    Ends cfg (infer Γ (.letIn x e₁ e₂)) n (vs₁ ++ vs₂)
      (r.map fun p => (p.1.compose s₁, p.2)) := by
  have hi₁ : Inferred Env.generalize cfg n Γ e₁ vs₁ s₁ t₁ := (infer_yields ..).of_ends_ok h₁
  refine .trace_bind rfl (h₁.bind_ok ?_)
  show Ends cfg (infer ((Γ.extend x ((Γ.subst s₁).generalize t₁)).subst s₁) e₂ >>= _) _ _ _
  rw [hi₁.let_env hcfg hΓ.over, hΓ.subst_eq]
  exact h₂.map _

/-- The type of a `let` is that of its body. -/
theorem typeOf_letIn_ends {vs₂ : List TyVar} {r : Except Fault Ty}
    (h₂ : Ends cfg (typeOf (Γ.extend x (Γ.generalize t₁)) e₂) (n + vs₁.length) vs₂ r) :
    Ends cfg (typeOf Γ (.letIn x e₁ e₂)) n (vs₁ ++ vs₂) r := by
  have hΓ₁ : (Γ.extend x (Γ.generalize t₁)).Closed := hΓ.extend x (hΓ.freeVars_generalize t₁)
  obtain ⟨ws, r₂, -, hrun⟩ :=
    infer_yields cfg (n + vs₁.length) (Γ.extend x (Γ.generalize t₁)) e₂
  obtain ⟨rfl, rfl⟩ := h₂.unique (typeOf_ends hcfg hΓ₁.over hrun)
  have hlet := typeOf_ends hcfg hΓ.over (infer_letIn_ends hcfg hΓ h₁ hrun)
  cases r₂ with
  | error f => exact hlet
  | ok p => exact hlet

end Let

theorem outOfTheWay_makeWay (e : Expr) (x : String) (d : Expr) :
    OutOfTheWay (Expr.single x d) (e.makeWay x d) := by
  intro y hy
  obtain ⟨hyx, hyd⟩ := Expr.boundNames_makeWay hy
  refine ⟨Expr.single_eq_none.2 hyx, fun z b hz => ?_⟩
  obtain ⟨-, rfl⟩ := Expr.single_eq_some.1 hz
  exact hyd

/-- The environment of the body of a `let` is linked with the one outside, where the bound
expression is put in the place of the name. -/
theorem Env.Closed.linked_extend {cfg : Config} {Γ : Env} (hΓ : Γ.Closed) (M : Matching)
    (x : String) {d : Expr} {σ : Scheme} (hσ : Realizes cfg Γ d σ) :
    Linked (Expr.single x d) cfg Γ M (Γ.extend x σ) Γ where
  kept y hy := by
    rw [Env.get?_extend, if_neg (Expr.single_eq_none.1 hy)]
    exact (hΓ.linked cfg M).kept y rfl
  realized y b hy := by
    obtain ⟨rfl, rfl⟩ := Expr.single_eq_some.1 hy
    exact ⟨σ, by rw [Env.get?_extend, if_pos rfl], hσ⟩
  needed _ _ _ _ _ := rfl

/-- Let-polymorphism is inlining. If the bound expression has a type, then a `let` and its body with
the bound expression in the place of the name, up to the choice of bound names, both have a type or
both fail, and never for want of depth. Their types, or the faults that they end with, are renamings
of each other. -/
theorem typeOf_letIn_inline (Γ : Env) (hΓ : Γ.Closed) (cfg cfg' : Config) (hcfg : cfg.SingleStems)
    (hcfg' : cfg'.SingleStems) (st st' : RunState) (x : String) (e₁ e₂ e' : Expr)
    (h₁ : ∃ t₁ st₁, typeOf Γ e₁ cfg st = .ok t₁ st₁) (he' : (e₂.inline x e₁).AlphaEquiv e') :
    ∃ (ρ : Renaming) (r : Except Fault Ty) (st₁ st₁' : RunState),
      r ≠ .error .outOfFuel ∧ typeOf Γ (.letIn x e₁ e₂) cfg st = ending r st₁ ∧
      typeOf Γ e' cfg' st' = ending (ρ.result r) st₁' := by
  obtain ⟨vs₁, s₁, t₁, h₁⟩ : ∃ vs₁ s₁ t₁, Ends cfg (infer Γ e₁) st.issued vs₁ (.ok (s₁, t₁)) := by
    obtain ⟨t₁, st₁, h₁⟩ := h₁
    obtain ⟨vs₁, r₁, -, hrun⟩ := infer_yields cfg st.issued Γ e₁
    cases r₁ with
    | ok p => exact ⟨vs₁, p.1, p.2, hrun⟩
    | error f =>
      have hfail : Ends cfg (typeOf Γ e₁) st.issued vs₁ (.error f) := Ends.bind_error hrun
      obtain ⟨st₂, h₂, -⟩ := hfail cfg.trace st rfl
      cases h₁.symm.trans h₂
  have hσ := realizes_generalize hcfg hΓ h₁ hcfg'
  have hΓ₁ : (Γ.extend x (Γ.generalize t₁)).Closed := hΓ.extend x hσ.closed
  obtain ⟨M, hM⟩ := Matching.exists_initial hcfg hcfg' (st.issued + vs₁.length) st'.issued
  obtain ⟨ρ, r, vs, vs', hx, hx', -⟩ := typeOf_lockstep hcfg hcfg' hΓ (outOfTheWay_makeWay e₂ x e₁)
    hM (hΓ₁.uncaptured _) (hΓ.uncaptured _) (hΓ.linked_extend M x hσ)
  have hbody := (typeOf_alpha hcfg (e₂.alphaEquiv_makeWay x e₁) (hΓ₁.uncaptured _)
    (hΓ₁.uncaptured _) (Env.agree_nil fun _ _ => rfl)).symm.ends hx
  have hinline := (typeOf_alpha hcfg' he' (hΓ.uncaptured _) (hΓ.uncaptured _)
    (Env.agree_nil fun _ _ => rfl)).ends hx'
  obtain ⟨st₁, hst₁, -⟩ := typeOf_letIn_ends hcfg hΓ h₁ hbody cfg.trace st rfl
  obtain ⟨st₁', hst₁', -⟩ := hinline cfg'.trace st' rfl
  exact ⟨ρ, r, st₁, st₁', typeOf_ends_ne_outOfFuel hcfg (hΓ₁.uncaptured _) hx, hst₁, hst₁'⟩

/-- One name, for a number. -/
def numberEnv : Env := .singleton "y" (.mono .int)

/-- Whatever it is given, the function returns the number `y`. -/
def toNumber : Expr := .abs "z" (.var "y")

/-- The parameter has the name of the number. -/
def underBinder : Expr := .abs "y" (.app (.var "f") (.var "y"))

/-- The function with its definition inlined, and a parameter out of the way of `y`. -/
def underBinderInlined : Expr := .abs "w" (.app toNumber (.var "w"))

theorem typeOf_letIn_inline_underBinder :
    numberEnv.Closed ∧ Config.SingleStems {} ∧ Config.SingleStems ⟨"t", "s", false⟩ ∧
      (∃ t₁ st₁, typeOf numberEnv toNumber {} {} = .ok t₁ st₁) ∧
      (underBinder.inline "f" toNumber).AlphaEquiv underBinderInlined ∧
      ∃ (ρ : Renaming) (r : Except Fault Ty) (st₁ st₁' : RunState),
        r ≠ .error .outOfFuel ∧
        typeOf numberEnv (.letIn "f" toNumber underBinder) {} {} = ending r st₁ ∧
        typeOf numberEnv underBinderInlined ⟨"t", "s", false⟩ {} = ending (ρ.result r) st₁' := by
  have hΓ : numberEnv.Closed := by decide
  have hcfg : Config.SingleStems {} := ⟨rfl, rfl⟩
  have hcfg' : Config.SingleStems ⟨"t", "s", false⟩ := ⟨rfl, rfl⟩
  have h₁ : ∃ t₁ st₁, typeOf numberEnv toNumber {} {} = .ok t₁ st₁ := ⟨_, _, rfl⟩
  have hinline : underBinder.inline "f" toNumber =
      .abs "y____" (.app toNumber (.var "y____")) := by decide +kernel
  have he : (underBinder.inline "f" toNumber).AlphaEquiv underBinderInlined := by
    rw [hinline]
    exact .abs (.app (.abs (.var (by simp [Expr.Paired]))) (.var (by simp [Expr.Paired])))
  exact ⟨hΓ, hcfg, hcfg', h₁, he, typeOf_letIn_inline numberEnv hΓ {} ⟨"t", "s", false⟩ hcfg hcfg'
    {} {} "f" toNumber underBinder underBinderInlined h₁ he⟩

end RowTyping
