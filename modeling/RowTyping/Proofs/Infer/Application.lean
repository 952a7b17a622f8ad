import RowTyping.Proofs.Infer.Supply
import RowTyping.Proofs.Unify.Steps

/-!
# Applications in closed environments

In an environment of closed schemes the parts of an application are inferred independently: neither
changes the environment of the other or the type found for it (`infer_app_ends`). If the function
has a function type, it is left to unify the type that it expects with that of the argument. The
application then has the result type of the function under that unifier, or a variable that stands
for it (`infer_fnApp_ends`); and it fails as the unification fails.
-/

namespace RowTyping

open InferM

theorem exists_unifyDepth_eq (t₁ t₂ : Ty) : ∃ d, unifyDepth t₁ t₂ = d + 4 := by
  have hpow : 2 ^ 2 ≤ Nat.pow 2 (((t₁.freeVars ∪ t₂.freeVars).size + 1) *
      ((t₁.fieldLabels ∪ t₂.fieldLabels).size + 2)) := by
    refine Nat.pow_le_pow_right (by decide) ?_
    exact Nat.le_trans (Nat.le_add_left 2 _) (Nat.le_mul_of_pos_left _ (Nat.succ_pos _))
  refine Nat.exists_eq_add_of_le' (Nat.le_trans hpow ?_)
  exact Nat.le_mul_of_pos_left _ (Nat.succ_pos _)

/-- A unifier does not mention a variable that neither occurs in the two types nor is issued. -/
theorem unifyWithin_not_mentions {cfg : Config} {d n : Nat} {t₁ t₂ : Ty} {vs : List TyVar}
    {s : Subst} (h : Ends cfg (unifyWithin d t₁ t₂) n vs (.ok s)) {u : TyVar}
    (hu : cfg.Stale n u) (h₁ : u ∉ t₁.freeVars) (h₂ : u ∉ t₂.freeVars) : ¬s.Mentions u := by
  have hs : Unified cfg n t₁ t₂ vs s := (unifyWithin_yields ..).of_ends_ok h
  have hover : s.Over (· ≠ u) := by
    refine hs.over (fun v hv he => h₁ (he ▸ hv)) (fun v hv he => h₂ (he ▸ hv)) fun v hv he => ?_
    exact hu.not_issued hs.namedFrom (he ▸ hv)
  exact fun hm => hover u hm rfl

namespace Subst

variable {s : Subst} {u : TyVar} (hs : ¬s.Mentions u)

include hs

theorem app_of_not_mentions : s.app u = .var u :=
  app_of_not_mem fun hk => hs (mentions_of_mem_keys hk)

theorem not_mem_freeVars_of_not_mentions {t : Ty} (ht : u ∉ t.freeVars) :
    u ∉ (t.subst s).freeVars := by
  intro hu
  rcases mem_freeVars_subst_cases hu with ⟨hu, -⟩ | ⟨w, τ, hw, hu⟩
  · exact ht hu
  · exact hs ⟨w, τ, hw, .inr hu⟩

/-- A variable that is not mentioned may be bound later without consequences for the others. -/
theorem app_singleton_compose (τ : Ty) (v : TyVar) :
    (compose (.singleton u τ) s).app v = if v = u then τ else s.app v := by
  rw [app_compose]
  by_cases hv : v = u
  · rw [if_pos (OrderedMap.mem_keys_singleton.2 hv), if_pos hv, app_singleton, if_pos hv]
  · have hu : u ∉ ((Ty.var v).subst s).freeVars :=
      not_mem_freeVars_of_not_mentions hs fun hm => hv (Ty.mem_freeVars_var.1 hm).symm
    rw [if_neg fun hk => hv (OrderedMap.mem_keys_singleton.1 hk), if_neg hv]
    exact Ty.subst_singleton_eq_self hu

end Subst

/-- What is inferred one after the other, in a closed environment, has no variables in common. -/
theorem infer_apart {cfg : Config} (hcfg : cfg.SingleStems) {Γ : Env} (hΓ : Γ.Closed) {n : Nat}
    {e₁ e₂ : Expr} {vs₁ vs₂ : List TyVar} {s₁ s₂ : Subst} {t₁ t₂ : Ty}
    (h₁ : Ends cfg (infer Γ e₁) n vs₁ (.ok (s₁, t₁)))
    (h₂ : Ends cfg (infer Γ e₂) (n + vs₁.length) vs₂ (.ok (s₂, t₂))) {v : TyVar}
    (hv : v ∈ t₁.freeVars) : v ∉ t₂.freeVars ∧ v ∉ s₂.keys := by
  have hi₁ : Inferred Env.generalize cfg n Γ e₁ vs₁ s₁ t₁ := (infer_yields ..).of_ends_ok h₁
  have hi₂ : Inferred Env.generalize cfg (n + vs₁.length) Γ e₂ vs₂ s₂ t₂ :=
    (infer_yields ..).of_ends_ok h₂
  obtain ⟨hs₂, ht₂⟩ : s₂.Over (· ∈ vs₂) ∧ t₂.Over (· ∈ vs₂) := hi₂.over hΓ.over fun _ hv => hv
  have hv : v ∉ vs₂ := ((hi₁.past hcfg hΓ.over).2 v hv).not_issued (hi₂.namedFrom hcfg)
  exact ⟨fun hm => hv (ht₂ v hm), fun hk => hv (hs₂ v (Subst.mentions_of_mem_keys hk))⟩

section App

variable {cfg : Config} (hcfg : cfg.SingleStems) {Γ : Env} (hΓ : Γ.Closed) {n : Nat} {f a : Expr}
  {vs₁ vs₂ vs₃ : List TyVar} {s₁ s₂ : Subst} {t₁ t₂ : Ty}
  (h₁ : Ends cfg (infer Γ f) n vs₁ (.ok (s₁, t₁)))

include hΓ h₁

/-- An application fails if its argument does. -/
theorem infer_appArg_ends {e : Fault}
    (h₂ : Ends cfg (infer Γ a) (n + vs₁.length) vs₂ (.error e)) :
    Ends cfg (infer Γ (.app f a)) n (vs₁ ++ vs₂) (.error e) := by
  refine .trace_bind rfl (h₁.bind_ok ?_)
  show Ends cfg (infer (Γ.subst s₁) a >>= _) _ _ _
  rw [hΓ.subst_eq]
  exact h₂.bind_error

variable (h₂ : Ends cfg (infer Γ a) (n + vs₁.length) vs₂ (.ok (s₂, t₂)))

include hcfg h₂

/-- Neither part of an application changes what is found for the other. -/
theorem infer_app_ends {r : Except Fault Subst}
    (hu : Ends cfg (unify t₁ (.fn t₂ (.var (cfg.typeVar (n + vs₁.length + vs₂.length)))))
      (n + vs₁.length + vs₂.length + 1) vs₃ r) :
    Ends cfg (infer Γ (.app f a)) n
      (vs₁ ++ (vs₂ ++ cfg.typeVar (n + vs₁.length + vs₂.length) :: vs₃))
      (r.map fun s₃ => (s₃.compose (s₂.compose s₁),
        s₃.app (cfg.typeVar (n + vs₁.length + vs₂.length)))) := by
  have ht₁ : t₁.subst s₂ = t₁ := Ty.subst_eq_self fun v hv => (infer_apart hcfg hΓ h₁ h₂ hv).2
  refine .trace_bind rfl (h₁.bind_ok ?_)
  show Ends cfg (infer (Γ.subst s₁) a >>= _) _ _ _
  rw [hΓ.subst_eq]
  refine h₂.bind_ok (Ends.freshType.bind_ok ?_)
  show Ends cfg (unify (t₁.subst s₂) _ >>= _) _ _ _
  rw [ht₁]
  exact hu.map _

end App

section FnApp

variable {cfg : Config} (hcfg : cfg.SingleStems) {Γ : Env} (hΓ : Γ.Closed) {n : Nat} {f a : Expr}
  {vs₁ vs₂ vs₃ : List TyVar} {s₁ s₂ s₃ : Subst} {p q t : Ty}
  (h₁ : Ends cfg (infer Γ f) n vs₁ (.ok (s₁, .fn p q)))
  (h₂ : Ends cfg (infer Γ a) (n + vs₁.length) vs₂ (.ok (s₂, t)))

include hcfg hΓ h₁ h₂

/-- An application has the result type of the function, where the variables are as the argument
demands. -/
theorem infer_fnApp_ends (hu : ∀ d, Ends cfg (unifyWithin (d + 3) p t)
      (n + vs₁.length + vs₂.length + 1) vs₃ (.ok s₃)) :
    ∃ vs s t', Ends cfg (infer Γ (.app f a)) n vs (.ok (s, t')) ∧ (q.subst s₃).StandsFor t' := by
  have hi₁ : Inferred Env.generalize cfg n Γ f vs₁ s₁ (.fn p q) := (infer_yields ..).of_ends_ok h₁
  have hi₂ : Inferred Env.generalize cfg (n + vs₁.length) Γ a vs₂ s₂ t :=
    (infer_yields ..).of_ends_ok h₂
  obtain ⟨hp, hq⟩ := Ty.over_fn.1 (hi₁.past hcfg hΓ.over).2
  have ht := (hi₂.past hcfg hΓ.over).2
  -- The variable of the result is new.
  generalize hm : n + vs₁.length + vs₂.length = m at hu
  have hnew : ∀ {τ : Ty} {k : Nat}, τ.Over (·.Past k) → k ≤ m →
      cfg.typeVar m ∉ τ.freeVars := fun h hk hv => ((h _ hv).mono hk).ne_typeVar hcfg rfl
  have hle : n + vs₁.length ≤ m := by omega
  have hs₃ : ¬s₃.Mentions (cfg.typeVar m) :=
    unifyWithin_not_mentions (hu 0) ((TyVar.typeVar_past hcfg).stale hcfg) (hnew hp hle)
      (hnew ht (Nat.le_of_eq hm))
  have happ := Subst.app_of_not_mentions hs₃
  obtain ⟨d, hd⟩ := exists_unifyDepth_eq (.fn p q) (.fn t (.var (cfg.typeVar m)))
  obtain ⟨vs₄, s₄, hret, hstands⟩ := unifyWithin_newVar_right cfg (m + 1 + vs₃.length)
    (cfg.typeVar_constraint m) (Subst.not_mem_freeVars_of_not_mentions hs₃ (hnew hq hle))
  have hret := hret (d + 2)
  rw [← happ, ← Ty.subst_var] at hret
  have hfn : Ends cfg (unify (.fn p q) (.fn t (.var (cfg.typeVar m)))) (m + 1) (vs₃ ++ vs₄)
      (.ok (s₄.compose s₃)) := by
    unfold unify
    rw [hd]
    exact unifyWithin_fn_ends (hu d) hret
  have hresult : (s₄.compose s₃).app (cfg.typeVar m) = s₄.app (cfg.typeVar m) := by
    rw [Subst.app_compose, happ, Ty.subst_var, ite_self]
  subst hm
  exact ⟨_, _, _, infer_app_ends hcfg hΓ h₁ h₂ hfn, hresult ▸ hstands⟩

/-- An application fails if the argument is not what the function expects. -/
theorem infer_fnApp_error {e : Fault} (hu : ∀ d, Ends cfg (unifyWithin (d + 3) p t)
      (n + vs₁.length + vs₂.length + 1) vs₃ (.error e)) :
    ∃ vs, Ends cfg (infer Γ (.app f a)) n vs (.error e) := by
  obtain ⟨d, hd⟩ := exists_unifyDepth_eq (.fn p q)
    (.fn t (.var (cfg.typeVar (n + vs₁.length + vs₂.length))))
  have hfn : Ends cfg (unify (.fn p q)
      (.fn t (.var (cfg.typeVar (n + vs₁.length + vs₂.length)))))
      (n + vs₁.length + vs₂.length + 1) vs₃ (.error e) := by
    unfold unify
    rw [hd]
    exact unifyWithin_fnArg_ends (hu d)
  exact ⟨_, infer_app_ends hcfg hΓ h₁ h₂ hfn⟩

end FnApp

end RowTyping
