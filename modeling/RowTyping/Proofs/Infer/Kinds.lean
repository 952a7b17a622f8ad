import RowTyping.Proofs.Infer.Relation
import RowTyping.Proofs.Unify.Depth

/-!
# Inference stays among well-kinded types

In an environment of well-kinded schemes, inference returns a well-kinded type and a substitution
that keeps kinds, or it says why the expression has no type. No name, stem or number matters for
this, and neither does what `let` quantifies: it holds of runs that issue a variable twice, and for
every `gen` whose schemes have the given type as their body.
-/

namespace RowTyping

theorem Config.copying_respects (cfg : Config) (stem : TyVar → String) (n : Nat)
    (us : List TyVar) {s : Subst} (hs : s.Respects) : (cfg.copying stem n us s).Respects := by
  induction us generalizing n s with
  | nil => exact hs
  | cons v us ih => exact ih (n + 1) (hs.insert (Ty.hasKind_var_self _))

theorem Config.copy_hasKind (cfg : Config) (stem : TyVar → String) (n : Nat) {σ : Scheme}
    (h : σ.body.HasKind .free) : (cfg.copy stem n σ).HasKind .free :=
  h.subst (cfg.copying_respects stem n σ.vars .empty)

/-! ## Inference -/

/-- No hole stands in the place of an expression or of a primitive. -/
def Expr.HoleFree : Expr → Prop
  | .var _ => True
  | .prim p => p ≠ .hole
  | .app f a => f.HoleFree ∧ a.HoleFree
  | .abs _ e => e.HoleFree
  | .letIn _ e₁ e₂ => e₁.HoleFree ∧ e₂.HoleFree
  | .hole => False

section Runs

variable {gen : Env → Ty → Scheme} (hgen : ∀ Γ t, (gen Γ t).body = t) {cfg : Config}

include hgen

/-- A kind is a matter of the body of a scheme, whatever the scheme quantifies. -/
theorem Env.Kinded.extend_gen {Γ : Env} (hΓ : Γ.Kinded) (x : String) (Γ' : Env) {t : Ty}
    (ht : t.HasKind .free) : (Γ.extend x (gen Γ' t)).Kinded :=
  hΓ.extend x (by rw [hgen]; exact ht)

/-- Inference returns a substitution that keeps kinds, and a well-kinded type. -/
theorem Inferred.hasKind {n : Nat} {Γ : Env} {e : Expr} {vs : List TyVar} {s : Subst} {t : Ty}
    (h : Inferred gen cfg n Γ e vs s t) (hΓ : Γ.Kinded) : s.Respects ∧ t.HasKind .free := by
  induction h with
  | var hx => exact ⟨.empty, cfg.copy_hasKind _ _ (hΓ _ _ hx)⟩
  | prim hp => exact ⟨.empty, cfg.copy_hasKind _ _ (Prim.scheme?_hasKind hp)⟩
  | app _ _ hu ih₁ ih₂ =>
    obtain ⟨hs₁, ht₁⟩ := ih₁ hΓ
    obtain ⟨hs₂, ht₂⟩ := ih₂ (hΓ.subst hs₁)
    have hs₃ := hu.respects (k := .free) (ht₁.subst hs₂) ⟨ht₂, trivial⟩
    exact ⟨hs₃.compose (hs₂.compose hs₁), .subst hs₃ (Ty.hasKind_var_self _)⟩
  | abs _ ih =>
    obtain ⟨hs, ht⟩ := ih (hΓ.extend _ (Ty.hasKind_var_self _))
    exact ⟨hs, .subst hs (Ty.hasKind_var_self _), ht⟩
  | letIn _ _ ih₁ ih₂ =>
    obtain ⟨hs₁, ht₁⟩ := ih₁ hΓ
    obtain ⟨hs₂, ht₂⟩ := ih₂ ((hΓ.extend_gen hgen _ _ ht₁).subst hs₁)
    exact ⟨hs₂.compose hs₁, ht₂⟩

/-- The two types that an application unifies have one kind. -/
theorem Inferred.app_sameKind {n m : Nat} {Γ : Env} {f a : Expr} {vs₁ vs₂ : List TyVar}
    {s₁ s₂ : Subst} {t₁ t₂ : Ty} (h₁ : Inferred gen cfg n Γ f vs₁ s₁ t₁)
    (h₂ : Inferred gen cfg (n + vs₁.length) (Γ.subst s₁) a vs₂ s₂ t₂) (hΓ : Γ.Kinded) :
    ∃ k, (t₁.subst s₂).HasKind k ∧ (Ty.fn t₂ (.var (cfg.typeVar m))).HasKind k := by
  obtain ⟨hs₁, ht₁⟩ := h₁.hasKind hgen hΓ
  obtain ⟨hs₂, ht₂⟩ := h₂.hasKind hgen (hΓ.subst hs₁)
  exact ⟨.free, ht₁.subst hs₂, ht₂, trivial⟩

/-- An expression without holes is rejected only with an error that concerns its types. The bound
on the depth of unification is never met. -/
theorem Rejected.isTypeError {n : Nat} {Γ : Env} {e : Expr} {vs : List TyVar} {f : Fault}
    (h : Rejected gen cfg n Γ e vs f) (hΓ : Γ.Kinded) (he : e.HoleFree) : f.IsTypeError := by
  induction h with
  | unbound => trivial
  | @prim _ _ p hp =>
    cases p with
    | hole => exact absurd rfl he
    | _ => cases hp
  | hole => exact he.elim
  | appFunc _ ih => exact ih hΓ he.1
  | appArg h₁ _ ih => exact ih (hΓ.subst (h₁.hasKind hgen hΓ).1) he.2
  | appUnify h₁ h₂ hr =>
    obtain ⟨k, hk₁, hk₂⟩ := h₁.app_sameKind hgen h₂ hΓ
    exact hr.isTypeError (hr.ne_outOfFuel (.inl ⟨k, hk₁, hk₂⟩)) hk₁ hk₂
  | abs _ ih => exact ih (hΓ.extend _ (Ty.hasKind_var_self _)) he
  | letBound _ ih => exact ih hΓ he.1
  | letBody h₁ _ ih =>
    obtain ⟨hs₁, ht₁⟩ := h₁.hasKind hgen hΓ
    exact ih ((hΓ.extend_gen hgen _ _ ht₁).subst hs₁) he.2

end Runs

/-! ## Labels of records -/

namespace Ty

/-- No record within the type repeats a label. -/
def LabelsDistinct : Ty → Prop
  | fn a r => a.LabelsDistinct ∧ r.LabelsDistinct
  | record r => r.rowLabels.Nodup ∧ r.LabelsDistinct
  | rowExtend _ f t => f.LabelsDistinct ∧ t.LabelsDistinct
  | _ => True

theorem HasKind.nodup_rowLabels {t : Ty} {ls : Labels} (h : t.HasKind (.lacks ls)) :
    t.rowLabels.Nodup := by
  induction t generalizing ls with
  | rowExtend l f t _ iht =>
    refine List.nodup_cons.2 ⟨fun hl => ?_, iht h.2.2⟩
    exact h.2.2.not_mem_of_rowLabels hl (OrdSet.mem_insert.2 (.inl rfl))
  | _ => exact .nil

theorem HasKind.labelsDistinct {t : Ty} {c : Constraint} (h : t.HasKind c) :
    t.LabelsDistinct := by
  induction t generalizing c with
  | fn a r iha ihr => exact ⟨iha h.of_fn.1, ihr h.of_fn.2⟩
  | record r ih => exact ⟨h.of_record.nodup_rowLabels, ih h.of_record⟩
  | rowExtend l f t ihf iht =>
    obtain ⟨ls, rfl⟩ := h.eq_lacks
    exact ⟨ihf h.2.1, iht h.2.2⟩
  | _ => trivial

end Ty

/-- Inference in an environment of well-kinded schemes returns a substitution that keeps kinds and
a well-kinded type, whose records do not repeat a label, or it fails with one of the errors that
concern the expression. This holds whichever variables `let` quantifies and however it lists them;
`infer` is the case where `gen` is `Env.generalize`. -/
theorem infer_kind_safe (gen : Env → Ty → Scheme) (hgen : ∀ Γ t, (gen Γ t).body = t)
    (cfg : Config) (st : RunState) (Γ : Env) (hΓ : ∀ σ ∈ Γ.values, σ.body.HasKind .free)
    (e : Expr) (he : e.HoleFree) :
    match inferWith gen Γ e cfg st with
    | .ok (s, t) _ => t.HasKind .free ∧ t.LabelsDistinct ∧
        ∀ c τ, Ty.HasKind τ c → (τ.subst s).HasKind c
    | .error f _ => f.IsTypeError := by
  have hΓ := Env.kinded_iff.2 hΓ
  have hrun := inferWith_yields gen cfg st.issued Γ e
  split
  · next hx =>
    obtain ⟨hs, ht⟩ := (hrun.of_ok rfl hx).1.hasKind hgen hΓ
    exact ⟨ht, ht.labelsDistinct, fun c τ hτ => hτ.subst hs⟩
  · next hx => exact (hrun.of_error rfl hx).1.isTypeError hgen hΓ he

/-- A record whose rest has a name that the run below issues as well. -/
def openRecord : Env := .singleton "r" (.mono (.record (.var ⟨"a7", .lacks (.singleton "x")⟩)))

/-- The record with one more field. -/
def extendOpen : Expr := .app (.app (.prim (.extend "x")) (.prim (.int 1))) (.var "r")

theorem infer_kind_safe_extendOpen :
    (∀ σ ∈ openRecord.values, σ.body.HasKind .free) ∧ extendOpen.HoleFree ∧
      ∃ s t st', infer openRecord extendOpen { rowStem := "a" } { issued := 6 } = .ok (s, t) st' ∧
        t.HasKind .free ∧ t.LabelsDistinct ∧ ∀ c τ, Ty.HasKind τ c → (τ.subst s).HasKind c := by
  have hΓ : ∀ σ ∈ openRecord.values, σ.body.HasKind .free := by decide
  have he : extendOpen.HoleFree := ⟨⟨nofun, nofun⟩, trivial⟩
  exact ⟨hΓ, he, _, _, _, rfl,
    infer_kind_safe Env.generalize Env.generalize_body { rowStem := "a" } { issued := 6 } _ hΓ _ he⟩

end RowTyping
