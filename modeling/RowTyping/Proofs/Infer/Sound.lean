import RowTyping.Proofs.Infer.Scope
import RowTyping.Proofs.Unify.Solutions

/-!
# Soundness of inference

An inferred type is a type of the expression. More generally, whatever values the variables of the
result take, the expression has the type that results in every environment that has the readings of
the environment of the run (`Inferred.sound`). With the other environment in the statement, no
typing derivation has to be substituted into: only at a `let` are the bound variables renamed.
-/

namespace RowTyping

/-! ## Environments with more readings -/

/-- The environment `Γ'` has all the readings of `Γ`, whose free variables have the values of
`φ`. -/
def Env.ReadIn (Γ : Env) (φ : Valuation) (Γ' : Env) : Prop :=
  ∀ x σ, Γ.get? x = some σ →
    ∃ σ', Γ'.get? x = some σ' ∧ ∀ τ, σ.Reading φ τ → σ'.Reading .self τ

namespace Env.ReadIn

variable {Γ Γ' : Env} {φ ψ : Valuation}

theorem congr (h : Γ.ReadIn φ Γ') (he : ∀ v ∈ Γ.freeVars, ψ v = φ v) : Γ.ReadIn ψ Γ' := by
  intro x σ hx
  obtain ⟨σ', hx', hσ⟩ := h x σ hx
  exact ⟨σ', hx', fun τ hτ => hσ τ (hτ.congr fun v hv => he v (mem_freeVars.2 ⟨x, σ, hx, hv⟩))⟩

theorem extend (h : Γ.ReadIn φ Γ') (x : String) {σ σ' : Scheme}
    (hσ : ∀ τ, σ.Reading φ τ → σ'.Reading .self τ) :
    (Γ.extend x σ).ReadIn φ (Γ'.extend x σ') := by
  intro y τ hy
  rw [get?_extend] at hy ⊢
  split at hy
  · next he => cases hy; exact ⟨σ', if_pos he, hσ⟩
  · next he => rw [if_neg he]; exact h y τ hy

end Env.ReadIn

theorem Env.readIn_subst {Γ Γ' : Env} {φ : Valuation} {n : Nat} {s : Subst} (hs : s.Respects)
    (hΓ : Γ.Uncaptured n) (hr : s.Over (Γ.Reaches n)) :
    (Γ.subst s).ReadIn φ Γ' ↔ Γ.ReadIn (φ.after s hs) Γ' := by
  constructor
  · intro h x σ hx
    obtain ⟨σ', hx', hσ⟩ := h x (σ.subst s) (by rw [get?_subst, hx]; rfl)
    exact ⟨σ', hx', fun τ hτ => hσ τ ((hΓ.reading_subst hs hr hx).2 hτ)⟩
  · intro h x τ hx
    rw [get?_subst] at hx
    obtain ⟨σ, hσ, rfl⟩ := Option.map_eq_some_iff.1 hx
    obtain ⟨σ', hx', hle⟩ := h x σ hσ
    exact ⟨σ', hx', fun τ hτ => hle τ ((hΓ.reading_subst hs hr hσ).1 hτ)⟩

theorem Env.Closed.readIn {Γ : Env} (h : Γ.Closed) (φ : Valuation) : Γ.ReadIn φ Γ :=
  fun x σ hx => ⟨σ, hx, fun _ hτ => hτ.congr fun v hv =>
    h.over (P := fun v => φ v = .var v) v (mem_freeVars.2 ⟨x, σ, hx, hv⟩)⟩

/-! ## Typing by readings -/

theorem Scheme.Reading.norm_eq {σ : Scheme} {φ : Valuation} {τ : Ty} (h : σ.Reading φ τ) :
    τ.norm = τ := by
  obtain ⟨χ, -, rfl⟩ := h
  exact χ.norm_eval _

theorem HasType.of_reading {Γ : Env} {e : Expr} {σ : Scheme} {τ : Ty}
    (h : ∀ t, σ.HasInstance t → HasType Γ e t) (hτ : σ.Reading .self τ) : HasType Γ e τ := by
  obtain ⟨t, ht, hn⟩ := Scheme.reading_self_iff.1 hτ
  exact .reorder (h t ht) (rowEquiv_iff.2 (hn.trans hτ.norm_eq.symm))

/-- A copy of a scheme reads as one of its instances. -/
theorem Config.copy_reading (cfg : Config) (stem : TyVar → String) (n : Nat) (σ : Scheme)
    (φ : Valuation) : σ.Reading φ ((cfg.copy stem n σ).eval φ) := by
  refine ⟨φ.after _ (cfg.copying_respects stem n σ.vars .empty), fun v hv => ?_,
    Valuation.eval_after _ _ _⟩
  rw [Valuation.after_apply, cfg.app_copying_of_not_mem stem (Scheme.mem_freeVars.1 hv).2,
    Subst.app_empty, Ty.eval]

theorem Valuation.after_compose (φ : Valuation) {newer older : Subst} (hn : newer.Respects)
    (ho : older.Respects) (hd : newer.Over (· ∉ older.keys)) :
    φ.after (newer.compose older) (hn.compose ho) = (φ.after newer hn).after older ho := by
  refine Valuation.ext (funext fun v => ?_)
  rw [after_apply, after_apply, eval_after, ← Ty.subst_var,
    Ty.subst_compose fun u hu => hd u (Subst.mentions_of_mem_keys hu), Ty.subst_var]

/-! ## Soundness -/

/-- Whatever values the variables of an inferred type take, the expression has the type that
results. -/
theorem Inferred.sound {cfg : Config} (hcfg : cfg.SingleStems) {n : Nat} {Γ : Env} {e : Expr}
    {vs : List TyVar} {s : Subst} {t : Ty} (h : Inferred Env.generalize cfg n Γ e vs s t)
    (hk : Γ.Kinded) (hΓ : Γ.Uncaptured n) (hs : s.Respects) {φ : Valuation} {Γ' : Env}
    (hr : Γ.ReadIn (φ.after s hs) Γ') : HasType Γ' e (t.eval φ) := by
  induction h generalizing φ Γ' with
  | @var n Γ x σ hx =>
    obtain ⟨σ', hx', hσ⟩ := hr x σ hx
    exact .of_reading (fun _ ht => .var hx' ht) (hσ _ (cfg.copy_reading TyVar.stem n σ φ))
  | @prim n Γ p σ hp =>
    refine .of_reading (fun _ ht => .prim hp ht) ?_
    exact (cfg.copy_reading cfg.ownStem n σ φ).congr fun v hv =>
      absurd hv (Prim.scheme?_closed hp v)
  | @app n Γ f a vs₁ vs₂ vs₃ s₁ s₂ s₃ t₁ t₂ h₁ h₂ hu ih₁ ih₂ =>
    obtain ⟨hs₁, kt₁⟩ := h₁.hasKind Env.generalize_body hk
    obtain ⟨hs₂, kt₂⟩ := h₂.hasKind Env.generalize_body (hk.subst hs₁)
    have hs₃ : s₃.Respects := hu.respects (kt₁.subst hs₂) ⟨kt₂, trivial⟩
    have hΓ₁ := h₁.uncaptured hcfg hΓ
    obtain ⟨hsol₁, hts₁⟩ := h₁.solved hcfg hΓ.past
    obtain ⟨hsol₂, hts₂⟩ := h₂.solved hcfg hΓ₁.past
    have hd₂ := (h₂.disjoint hcfg hsol₁ (h₁.past hcfg hΓ.past).1).1
    have hd₃ := (h₁.app_disjoint hcfg h₂ hΓ.past hu hsol₁ hts₁ hsol₂ hts₂).2
    rw [φ.after_compose hs₃ (hs₂.compose hs₁) hd₃, Valuation.after_compose _ hs₂ hs₁ hd₂] at hr
    have hf := ih₁ hk hΓ hs₁ hr
    have ha := ih₂ (hk.subst hs₁) hΓ₁ hs₂
      ((Env.readIn_subst hs₁ hΓ (h₁.reaches hcfg).1).2 hr)
    -- The unifier makes the type of the function one from the type of the argument.
    obtain ⟨hq₁, hq₂⟩ := h₁.app_stale hcfg h₂ hΓ.past
    have he : t₁.eval ((φ.after s₃ hs₃).after s₂ hs₂) =
        (Ty.fn t₂ (.var (cfg.typeVar (n + vs₁.length + vs₂.length)))).eval (φ.after s₃ hs₃) := by
      rw [Valuation.eval_after, Valuation.eval_after, ← Ty.eval_norm, hu.sound hcfg hq₁ hq₂,
        Ty.eval_norm, Valuation.eval_after]
    rw [he] at hf
    exact .app hf ha
  | @abs n Γ x e vs s t h ih =>
    have hα : (Ty.var (cfg.typeVar n)).HasKind .free := Ty.hasKind_var_self _
    refine .abs ((hα.subst hs).eval φ.hasKind) (ih (hk.extend x hα) (hΓ.extend_typeVar hcfg x) hs
      (hr.extend x fun τ hτ => ?_))
    rw [Scheme.reading_mono, Valuation.eval_after] at hτ
    rw [Scheme.reading_mono, ← hτ]
    exact φ.norm_eval _
  | @letIn n Γ x e₁ e₂ vs₁ vs₂ s₁ s₂ t₁ t₂ h₁ h₂ ih₁ ih₂ =>
    obtain ⟨hs₁, kt₁⟩ := h₁.hasKind Env.generalize_body hk
    have hd₂ := (h₂.disjoint hcfg (h₁.solved hcfg hΓ.past).1 (h₁.past hcfg hΓ.past).1).1
    rw [h₁.let_env hcfg hΓ.past x] at h₂ ih₂
    have hk₂ : ((Γ.subst s₁).extend x ((Γ.subst s₁).generalize t₁)).Kinded :=
      (hk.subst hs₁).extend x kt₁
    have hs₂ := (h₂.hasKind Env.generalize_body hk₂).1
    have hread : ∀ χ, (Γ.subst s₁).ReadIn χ Γ' ↔ Γ.ReadIn (χ.after s₁ hs₁) Γ' := fun χ =>
      Env.readIn_subst hs₁ hΓ (h₁.reaches hcfg).1
    rw [φ.after_compose hs₂ hs₁ hd₂, ← hread] at hr
    -- The values may send a generalized variable to a free one of `Γ'`, which the rule does not
    -- generalize. So the bound expression is typed with other values for these variables.
    obtain ⟨ψ, hψ, hgen⟩ := exists_generalization (Γ.subst s₁) Γ' t₁ (φ.after s₂ hs₂)
    have he₁ := ih₁ hk hΓ hs₁ ((hread ψ).1 (hr.congr hψ))
    have he₂ := ih₂ hk₂ (h₁.let_uncaptured hcfg hΓ x) hs₂ (hr.extend x hgen)
    exact .letIn he₁ (fun _ => Env.mem_generalize_vars) he₂

/-- The inferred type is a type of the expression, when the schemes are closed. -/
theorem Inferred.hasType {cfg : Config} (hcfg : cfg.SingleStems) {n : Nat} {Γ : Env} {e : Expr}
    {vs : List TyVar} {s : Subst} {t : Ty} (h : Inferred Env.generalize cfg n Γ e vs s t)
    (hk : Γ.Kinded) (hΓ : Γ.Closed) : HasType Γ e t := by
  have ht := h.sound hcfg hk (hΓ.uncaptured n) (h.hasKind Env.generalize_body hk).1
    (hΓ.readIn (Valuation.self.after s _))
  exact .reorder ht (RowEquiv.norm t).symm

/-- With stems of one character and closed schemes, inference returns only types that the expression
has. -/
theorem typeOf_sound (cfg : Config) (hcfg : cfg.SingleStems) (Γ : Env) (hΓ : Γ.Closed)
    (hk : ∀ σ ∈ Γ.values, σ.body.HasKind .free) (e : Expr) (st st' : RunState) (t : Ty)
    (h : typeOf Γ e cfg st = .ok t st') : HasType Γ e t := by
  obtain ⟨⟨s, t, hi, rfl⟩, -⟩ := (typeOf_yields cfg st.issued Γ e).of_ok rfl h
  rw [Ty.subst_eq_self (hi.solved hcfg hΓ.over).2]
  exact hi.hasType hcfg (Env.kinded_iff.2 hk) hΓ

/-- A value that is a record with the field `x`, whatever else. -/
def anyRecordX : Env :=
  .singleton "o" ⟨[⟨"q", .lacks (.singleton "x")⟩],
    .record (.rowExtend "x" .int (.var ⟨"q", .lacks (.singleton "x")⟩))⟩

/-- The expression `let f = fun r => r.x in f o`. -/
def selectFromAny : Expr :=
  .letIn "f" (.abs "r" (.app (.prim (.select "x")) (.var "r"))) (.app (.var "f") (.var "o"))

theorem typeOf_sound_selectFromAny :
    Config.SingleStems {} ∧ anyRecordX.Closed ∧ (∀ σ ∈ anyRecordX.values, σ.body.HasKind .free) ∧
      ∃ st', typeOf anyRecordX selectFromAny {} {} = .ok .int st' ∧
        HasType anyRecordX selectFromAny .int := by
  have hcfg : Config.SingleStems {} := ⟨rfl, rfl⟩
  have hΓ : anyRecordX.Closed := by decide
  have hk : ∀ σ ∈ anyRecordX.values, σ.body.HasKind .free := by decide
  exact ⟨hcfg, hΓ, hk, _, rfl, typeOf_sound {} hcfg _ hΓ hk selectFromAny {} _ .int rfl⟩

end RowTyping
