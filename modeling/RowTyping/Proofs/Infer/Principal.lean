import RowTyping.Proofs.Infer.Sound

/-!
# Inference finds principal types

If an expression has a type, inference finds one of which it is an instance. The statement that goes
through by induction is about values of variables: when an expression has a type in an environment
that the environment of a run covers, there are values for the issued variables with which the
inferred type reads as that type (`Inferred.general`), and the run does not fail
(`Rejected.untypable`).

`Env.Covers` says that one environment has all the readings of another. It also keeps track of the
values of free variables: they mention only variables that are free in the other environment, scheme
by scheme. Without this, `let` might generalize less than the typing rule.
-/

namespace RowTyping

/-! ## Environments that cover others -/

/-- The scheme `σ`, whose free variables have the values of `φ`, has all the readings of `σ'`. -/
structure Scheme.Covers (φ : Valuation) (σ σ' : Scheme) : Prop where
  reading : ∀ τ, σ'.Reading .self τ → σ.Reading φ τ
  values : ∀ v ∈ σ.freeVars, (φ v).Over (· ∈ σ'.freeVars)

/-- The environment `Γ`, whose free variables have the values of `φ`, covers `Γ'`, and both bind the
same names. -/
structure Env.Covers (Γ : Env) (φ : Valuation) (Γ' : Env) : Prop where
  unbound : ∀ x, Γ.get? x = none → Γ'.get? x = none
  bound : ∀ x σ, Γ.get? x = some σ → ∃ σ', Γ'.get? x = some σ' ∧ σ.Covers φ σ'

namespace Env.Covers

variable {Γ Γ' : Env} {φ ψ : Valuation}

theorem values (h : Γ.Covers φ Γ') {v : TyVar} (hv : v ∈ Γ.freeVars) :
    (φ v).Over (· ∈ Γ'.freeVars) := by
  obtain ⟨x, σ, hx, hv⟩ := mem_freeVars.1 hv
  obtain ⟨σ', hx', hc⟩ := h.bound x σ hx
  exact fun u hu => mem_freeVars.2 ⟨x, σ', hx', hc.values v hv u hu⟩

theorem extend (h : Γ.Covers φ Γ') (x : String) {σ σ' : Scheme} (hσ : σ.Covers φ σ') :
    (Γ.extend x σ).Covers φ (Γ'.extend x σ') where
  unbound y hy := by
    rw [get?_extend] at hy ⊢
    split at hy
    · cases hy
    · next he => rw [if_neg he]; exact h.unbound y hy
  bound y τ hy := by
    rw [get?_extend] at hy ⊢
    split at hy
    · next he => cases hy; exact ⟨σ', if_pos he, hσ⟩
    · next he => rw [if_neg he]; exact h.bound y τ hy

theorem congr (h : Γ.Covers φ Γ') (he : ∀ v ∈ Γ.freeVars, ψ v = φ v) : Γ.Covers ψ Γ' where
  unbound := h.unbound
  bound x σ hx := by
    have hσ : ∀ v ∈ σ.freeVars, ψ v = φ v := fun v hv => he v (mem_freeVars.2 ⟨x, σ, hx, hv⟩)
    obtain ⟨σ', hx', hc⟩ := h.bound x σ hx
    refine ⟨σ', hx', fun τ hτ => (hc.reading τ hτ).congr fun v hv => (hσ v hv).symm, fun v hv => ?_⟩
    rw [hσ v hv]
    exact hc.values v hv

/-- Values that absorb a substitution fit the substituted environment. -/
theorem subst (h : Γ.Covers φ Γ') {n : Nat} (hΓ : Γ.Uncaptured n) {s : Subst} (hs : s.Respects)
    (hr : s.Over (Γ.Reaches n)) (ha : ∀ v ∈ Γ.freeVars, (s.app v).eval ψ = φ v) :
    (Γ.subst s).Covers ψ Γ' where
  unbound x hx := by
    rw [get?_subst, Option.map_eq_none_iff] at hx
    exact h.unbound x hx
  bound x τ hτ := by
    rw [get?_subst] at hτ
    obtain ⟨σ, hx, rfl⟩ := Option.map_eq_some_iff.1 hτ
    have hσ : ∀ v ∈ σ.freeVars, (s.app v).eval ψ = φ v := fun v hv =>
      ha v (mem_freeVars.2 ⟨x, σ, hx, hv⟩)
    obtain ⟨σ', hx', hc⟩ := h.bound x σ hx
    refine ⟨σ', hx', fun τ hτ => (hΓ.reading_subst hs hr hx).2 ?_, fun u hu w hw => ?_⟩
    · exact (hc.reading τ hτ).congr fun v hv => (hσ v hv).symm
    · obtain ⟨-, v, hv, huv⟩ := Scheme.mem_freeVars_subst.1 hu
      refine hc.values v hv w ?_
      rw [← hσ v hv]
      exact Ty.mem_freeVars_eval.2 ⟨u, huv, hw⟩

end Env.Covers

theorem Env.Closed.covers {Γ : Env} (h : Γ.Closed) (φ : Valuation) : Γ.Covers φ Γ where
  unbound _ hx := hx
  bound x σ hx := by
    have hσ : ∀ {P : TyVar → Prop}, σ.Over P := fun {_} => Env.over_iff.1 h.over x σ hx
    exact ⟨σ, hx, fun τ hτ => hτ.congr hσ, hσ⟩

/-! ## Copies -/

section Copies

variable {cfg : Config} (hcfg : cfg.SingleStems) {stem : TyVar → String}
  (hstem : ∀ v, (stem v).length ≤ 1)

include hcfg hstem

/-- The copies of variables can take any values of the right kinds. -/
theorem Config.exists_copying (n : Nat) (us : List TyVar) (s : Subst) (φ χ : Valuation) :
    ∃ ψ : Valuation, (∀ v, v ∉ cfg.copies stem n us → ψ v = φ v) ∧
      ∀ v ∈ us, ((cfg.copying stem n us s).app v).eval ψ = χ v := by
  induction us generalizing n s φ with
  | nil => exact ⟨φ, fun _ _ => rfl, fun v hv => by cases hv⟩
  | cons v us ih =>
    have hvs := cfg.copies_namedFrom hcfg.type hstem n (v :: us)
    obtain ⟨ψ, hagree, heval⟩ := ih (n + 1)
      (s.insert v (.var (cfg.issue (stem v) v.constraint n)))
      (φ.set (cfg.issue (stem v) v.constraint n) (χ v) (χ.hasKind v) (χ.sorted v))
    have hw : cfg.issue (stem v) v.constraint n ∉ cfg.copies stem (n + 1) us := by
      have hone : NamedFrom SingleStem n [cfg.issue (stem v) v.constraint n] := ⟨hvs.1, trivial⟩
      exact (TyVar.past_of_issued hone List.mem_cons_self).not_issued hvs.2
    refine ⟨ψ, fun u hu => ?_, fun u hu => ?_⟩
    · rw [copies, List.mem_cons, not_or] at hu
      exact (hagree u hu.2).trans (Valuation.set_of_ne _ _ _ hu.1)
    · -- A variable that is listed again later is copied again, and the later copy counts.
      by_cases hus : u ∈ us
      · exact heval u hus
      · obtain rfl := (List.mem_cons.1 hu).resolve_right hus
        rw [copying, cfg.app_copying_of_not_mem stem hus,
          Subst.app_of_get? ((OrderedMap.get?_insert ..).trans (if_pos rfl))]
        exact (hagree _ hw).trans (Valuation.set_self ..)

/-- Each reading of a scheme is one of its copy. -/
theorem Config.exists_copy {n : Nat} {σ : Scheme} (hσ : σ.Over (·.Past n)) {φ : Valuation} {τ : Ty}
    (h : σ.Reading φ τ) : ∃ ψ, φ.Extends (cfg.copies stem n σ.vars) .empty ψ ∧
      (cfg.copy stem n σ).eval ψ = τ := by
  obtain ⟨χ, hχ, rfl⟩ := h
  obtain ⟨ψ, hagree, heval⟩ := cfg.exists_copying hcfg hstem n σ.vars .empty φ χ
  refine ⟨ψ, ⟨hagree, .empty ψ⟩, (Ty.eval_subst ..).trans (Ty.eval_congr fun v hv => ?_)⟩
  by_cases hvs : v ∈ σ.vars
  · exact heval v hvs
  · have hv := Scheme.mem_freeVars.2 ⟨hv, hvs⟩
    rw [cfg.app_copying_of_not_mem stem hvs, hχ v hv]
    exact hagree v ((hσ v hv).not_issued (cfg.copies_namedFrom hcfg.type hstem n σ.vars))

end Copies

/-! ## Applications -/

section App

variable {cfg : Config} (hcfg : cfg.SingleStems) {n : Nat} {Γ : Env} {f a : Expr}
  {vs₁ vs₂ : List TyVar} {s₁ s₂ : Subst} {t₁ t₂ : Ty}
  (h₁ : Inferred Env.generalize cfg n Γ f vs₁ s₁ t₁)
  (h₂ : Inferred Env.generalize cfg (n + vs₁.length) (Γ.subst s₁) a vs₂ s₂ t₂) (hk : Γ.Kinded)
  (hΓ : Γ.Over (·.Past n))

include hcfg h₁ h₂ hk hΓ

theorem Inferred.app_wellPosed : WellPosed cfg (n + vs₁.length + vs₂.length + 1) (t₁.subst s₂)
    (.fn t₂ (.var (cfg.typeVar (n + vs₁.length + vs₂.length)))) := by
  obtain ⟨hq₁, hq₂⟩ := h₁.app_stale hcfg h₂ hΓ
  exact ⟨hcfg, h₁.app_sameKind Env.generalize_body h₂ hk, hq₁, hq₂⟩

/-- Values with which the parts of an application have the right types solve the equation that the
application leads to. -/
theorem Inferred.app_solution {φ ψ₁ ψ₂ : Valuation} {t r : Ty} (e₁ : φ.Extends vs₁ s₁ ψ₁)
    (he₁ : t₁.eval ψ₁ = (Ty.fn t r).norm) (e₂ : ψ₁.Extends vs₂ s₂ ψ₂) (he₂ : t₂.eval ψ₂ = t.norm) :
    ∃ χ, φ.Extends (vs₁ ++ vs₂ ++ [cfg.typeVar (n + vs₁.length + vs₂.length)]) (s₂.compose s₁) χ ∧
      (t₁.subst s₂).eval χ =
        (Ty.fn t₂ (.var (cfg.typeVar (n + vs₁.length + vs₂.length)))).eval χ ∧
      χ (cfg.typeVar (n + vs₁.length + vs₂.length)) = r.norm := by
  obtain ⟨hs₁, kt₁⟩ := h₁.hasKind Env.generalize_body hk
  obtain ⟨hp₁, hpt₁⟩ := h₁.past hcfg hΓ
  obtain ⟨-, hp, hps₂, hpt₂⟩ := h₁.app_past hcfg h₂ hΓ
  have hγ : ∀ v : TyVar, v.Past (n + vs₁.length + vs₂.length) →
      v ≠ cfg.typeVar (n + vs₁.length + vs₂.length) := fun v hv => hv.ne_typeVar hcfg
  -- The variable for the result takes the value of the result, which has its kind because the
  -- inferred type of the function is well kinded.
  have hr : (Ty.fn t.norm r.norm).HasKind .free := by
    have hf := kt₁.eval ψ₁.hasKind
    rwa [he₁] at hf
  obtain ⟨χ, hself, hne⟩ : ∃ χ : Valuation,
      χ (cfg.typeVar (n + vs₁.length + vs₂.length)) = r.norm ∧
        ∀ v, v ≠ cfg.typeVar (n + vs₁.length + vs₂.length) → χ v = ψ₂ v :=
    ⟨ψ₂.set _ r.norm hr.of_fn.2 (Ty.norm_norm r), ψ₂.set_self _ _, fun _ hv => ψ₂.set_of_ne _ _ hv⟩
  have e := e₁.trans e₂ fun v hv => (hp₁ v hv).not_issued (h₂.namedFrom hcfg)
  refine ⟨χ, ⟨fun v hv => ?_, ?_⟩, ?_, hself⟩
  · rw [List.mem_append, not_or, List.mem_singleton] at hv
    exact (hne v hv.2).trans (e.agree v hv.1)
  · exact e.absorbs.congr fun v hv => hne v (hγ v (hp v hv))
  · have ht₁ : (t₁.subst s₂).eval χ = (Ty.fn t r).norm := by
      rw [Ty.eval_congr fun v hv => hne v (hγ v (hps₂ v hv)),
        e₂.eval_subst fun v hv => (hpt₁ v hv).not_issued (h₂.namedFrom hcfg), he₁]
    have ht₂ : t₂.eval χ = t.norm := by
      rw [Ty.eval_congr fun v hv => hne v (hγ v (hpt₂ v hv)), he₂]
    rw [ht₁, Ty.eval, ht₂, Ty.eval, hself]
    rfl

end App

/-! ## The environments of a run cover those of a typing -/

section Covers

variable {cfg : Config} (hcfg : cfg.SingleStems) {n : Nat} {Γ Γ' : Env} {φ ψ : Valuation}
  (hΓ : Γ.Uncaptured n) (hc : Γ.Covers φ Γ')

include hcfg hΓ hc

theorem Env.Covers.extend_typeVar (x : String) {t : Ty} (ht : t.HasKind .free) :
    (Γ.extend x (.mono (.var (cfg.typeVar n)))).Covers
      (φ.set (cfg.typeVar n) t.norm (Ty.hasKind_norm.2 ht) (Ty.norm_norm t))
      (Γ'.extend x (.mono t)) := by
  have hold := hc.congr fun v hv => φ.set_of_ne (Ty.hasKind_norm.2 ht) (Ty.norm_norm t)
    ((hΓ.past v hv).ne_typeVar hcfg)
  refine hold.extend x ⟨fun τ hτ => ?_, fun v hv => ?_⟩
  · rw [Scheme.reading_mono] at hτ ⊢
    exact (φ.set_self _ _).trans hτ
  · rw [Scheme.mem_freeVars_mono, Ty.mem_freeVars_var] at hv
    rw [hv, φ.set_self]
    exact fun u hu => Scheme.mem_freeVars_mono.2 (Ty.mem_freeVars_norm.1 hu)

variable {e : Expr} {vs : List TyVar} {s : Subst} {t : Ty}
  (h : Inferred Env.generalize cfg n Γ e vs s t) (hk : Γ.Kinded) (he : φ.Extends vs s ψ)

include h hk he

theorem Inferred.covers : (Γ.subst s).Covers ψ Γ' := by
  refine hc.subst hΓ (h.hasKind Env.generalize_body hk).1 (h.reaches hcfg).1 fun v hv => ?_
  refine he.eval_subst (t := .var v) fun u hu => ?_
  rw [Ty.mem_freeVars_var.1 hu]
  exact (hΓ.past v hv).not_issued (h.namedFrom hcfg)

theorem Inferred.let_covers (x : String) {us : List TyVar} {t' : Ty} (ht : t.eval ψ = t'.norm)
    (hus : ∀ u ∈ us, u ∉ Γ'.freeVars) :
    ((Γ.subst s).extend x ((Γ.subst s).generalize t)).Covers ψ (Γ'.extend x ⟨us, t'⟩) := by
  have hcs := h.covers hcfg hΓ hc hk he
  refine hcs.extend x ⟨fun τ hτ => hτ.of_generalization ht hus fun v _ hv => hcs.values hv, ?_⟩
  intro v hv u hu
  obtain ⟨hv, hΓv⟩ := Env.mem_freeVars_generalize.1 hv
  refine Scheme.mem_freeVars.2 ⟨?_, fun hm => hus u hm (hcs.values hΓv u hu)⟩
  rw [← Ty.mem_freeVars_norm, ← ht]
  exact Ty.mem_freeVars_eval.2 ⟨v, hv, hu⟩

end Covers

/-! ## Generality -/

/-- If the expression has a type in an environment that is covered, the inferred type reads as it
with suitable values for the issued variables. -/
theorem Inferred.general {cfg : Config} (hcfg : cfg.SingleStems) {Γ' : Env} {e : Expr} {τ : Ty}
    (hτ : HasType Γ' e τ) {n : Nat} {Γ : Env} {vs : List TyVar} {s : Subst} {t : Ty}
    (h : Inferred Env.generalize cfg n Γ e vs s t) (hk : Γ.Kinded) (hΓ : Γ.Uncaptured n)
    {φ : Valuation} (hc : Γ.Covers φ Γ') : ∃ ψ, φ.Extends vs s ψ ∧ t.eval ψ = τ.norm := by
  -- By induction on the typing and not on the run: `reorder` leaves the run as it is.
  induction hτ generalizing n Γ vs s t φ with
  | @var Γ' x σ' τ hx' hi =>
    cases h with
    | @var _ _ _ σ hx =>
      obtain ⟨_, hx'', hσ⟩ := hc.bound x σ hx
      obtain rfl := Option.some.inj (hx'.symm.trans hx'')
      exact cfg.exists_copy hcfg TyVar.length_stem_le (Env.over_iff.1 hΓ.past x σ hx)
        (hσ.reading _ (Scheme.reading_self_iff.2 ⟨τ, hi, rfl⟩))
  | @prim Γ' p σ' τ hp' hi =>
    cases h with
    | @prim _ _ _ σ hp =>
      obtain rfl := Option.some.inj (hp'.symm.trans hp)
      have hσ : ∀ {P : TyVar → Prop}, σ'.Over P := fun {_} v hv =>
        absurd hv (Prim.scheme?_closed hp v)
      exact cfg.exists_copy hcfg (cfg.length_ownStem_le hcfg) hσ
        ((Scheme.reading_self_iff.2 ⟨τ, hi, rfl⟩).congr hσ)
  | app _ _ ihf iha =>
    cases h with
    | @app _ _ _ _ vs₁ vs₂ vs₃ s₁ s₂ s₃ t₁ t₂ h₁ h₂ hu =>
      obtain ⟨ψ₁, e₁, he₁⟩ := ihf h₁ hk hΓ hc
      obtain ⟨ψ₂, e₂, he₂⟩ := iha h₂ (hk.subst (h₁.hasKind Env.generalize_body hk).1)
        (h₁.uncaptured hcfg hΓ) (h₁.covers hcfg hΓ hc hk e₁)
      obtain ⟨χ, eχ, hχ, hγ⟩ := h₁.app_solution hcfg h₂ hk hΓ.past e₁ he₁ e₂ he₂
      obtain ⟨ψ, eψ⟩ := hu.general (h₁.app_wellPosed hcfg h₂ hk hΓ.past) hχ
      have hvs₃ := hu.namedFrom.mono hcfg.ownStem
      have hp := (h₁.app_past hcfg h₂ hΓ.past).2.1
      have etrans := eχ.trans eψ fun v hv => ((hp v hv).mono (Nat.le_succ _)).not_issued hvs₃
      refine ⟨ψ, by simpa using etrans, ?_⟩
      rw [eψ.absorbs.eval_subst]
      exact (eψ.agree _ ((TyVar.typeVar_past hcfg).not_issued hvs₃)).trans hγ
  | @abs Γ' x e a r ha _ ih =>
    cases h with
    | @abs _ _ _ _ vs s t h =>
      obtain ⟨ψ, eψ, hψ⟩ := ih h (hk.extend x (Ty.hasKind_var_self _)) (hΓ.extend_typeVar hcfg x)
        (hc.extend_typeVar hcfg hΓ x ha)
      have hα := (TyVar.typeVar_past hcfg).not_issued (h.namedFrom hcfg)
      refine ⟨ψ, ⟨fun v hv => ?_, eψ.absorbs⟩, ?_⟩
      · rw [List.mem_cons, not_or] at hv
        exact (eψ.agree v hv.2).trans (φ.set_of_ne _ _ hv.1)
      · rw [Ty.eval, eψ.absorbs.eval_subst, hψ, Ty.eval, eψ.agree _ hα, φ.set_self]
        rfl
  | @letIn Γ' x e₁ e₂ us τ₁ τ₂ _ hus _ ih₁ ih₂ =>
    cases h with
    | @letIn _ _ _ _ _ vs₁ vs₂ s₁ s₂ t₁ t₂ h₁ h₂ =>
      obtain ⟨hs₁, kt₁⟩ := h₁.hasKind Env.generalize_body hk
      rw [h₁.let_env hcfg hΓ.past x] at h₂
      obtain ⟨ψ₁, e₁, he₁⟩ := ih₁ h₁ hk hΓ hc
      obtain ⟨ψ₂, e₂, he₂⟩ := ih₂ h₂ ((hk.subst hs₁).extend x kt₁) (h₁.let_uncaptured hcfg hΓ x)
        (h₁.let_covers hcfg hΓ hc hk e₁ x he₁ fun u hu => ((hus u).1 hu).2)
      have hp := (h₁.past hcfg hΓ.past).1
      exact ⟨ψ₂, e₁.trans e₂ fun v hv => (hp v hv).not_issued (h₂.namedFrom hcfg), he₂⟩
  | reorder _ heq ih =>
    rw [← heq.norm_eq]
    exact ih h hk hΓ hc

/-- An expression that has a type in an environment that is covered is not rejected. -/
theorem Rejected.untypable {cfg : Config} (hcfg : cfg.SingleStems) {Γ' : Env} {e : Expr} {τ : Ty}
    (hτ : HasType Γ' e τ) {n : Nat} {Γ : Env} {vs : List TyVar} {f : Fault}
    (h : Rejected Env.generalize cfg n Γ e vs f) (hk : Γ.Kinded) (hΓ : Γ.Uncaptured n)
    {φ : Valuation} (hc : Γ.Covers φ Γ') : False := by
  induction hτ generalizing n Γ vs f φ with
  | @var Γ' x σ' τ hx' _ =>
    cases h with
    | unbound hx => cases hx'.symm.trans (hc.unbound x hx)
  | prim hp' _ =>
    cases h with
    | prim hp => cases hp'.symm.trans hp
  | app hf ha ihf iha =>
    cases h with
    | appFunc h => exact ihf h hk hΓ hc
    | appArg h₁ h₂ =>
      obtain ⟨ψ₁, e₁, -⟩ := h₁.general hcfg hf hk hΓ hc
      exact iha h₂ (hk.subst (h₁.hasKind Env.generalize_body hk).1) (h₁.uncaptured hcfg hΓ)
        (h₁.covers hcfg hΓ hc hk e₁)
    | appUnify h₁ h₂ hr =>
      obtain ⟨ψ₁, e₁, he₁⟩ := h₁.general hcfg hf hk hΓ hc
      obtain ⟨ψ₂, e₂, he₂⟩ := h₂.general hcfg ha (hk.subst (h₁.hasKind Env.generalize_body hk).1)
        (h₁.uncaptured hcfg hΓ) (h₁.covers hcfg hΓ hc hk e₁)
      obtain ⟨χ, -, hχ, -⟩ := h₁.app_solution hcfg h₂ hk hΓ.past e₁ he₁ e₂ he₂
      have hp := h₁.app_wellPosed hcfg h₂ hk hΓ.past
      exact hr.unsolvable (hr.ne_outOfFuel (.inl hp.sameKind)) hp χ hχ
  | @abs Γ' x e a r ha _ ih =>
    cases h with
    | abs h =>
      exact ih h (hk.extend x (Ty.hasKind_var_self _)) (hΓ.extend_typeVar hcfg x)
        (hc.extend_typeVar hcfg hΓ x ha)
  | @letIn Γ' x e₁ e₂ us τ₁ τ₂ h₁' hus _ ih₁ ih₂ =>
    cases h with
    | letBound h => exact ih₁ h hk hΓ hc
    | letBody h₁ h₂ =>
      obtain ⟨hs₁, kt₁⟩ := h₁.hasKind Env.generalize_body hk
      rw [h₁.let_env hcfg hΓ.past x] at h₂
      obtain ⟨ψ₁, e₁, he₁⟩ := h₁.general hcfg h₁' hk hΓ hc
      exact ih₂ h₂ ((hk.subst hs₁).extend x kt₁) (h₁.let_uncaptured hcfg hΓ x)
        (h₁.let_covers hcfg hΓ hc hk e₁ x he₁ fun u hu => ((hus u).1 hu).2)
  | reorder _ _ ih => exact ih h hk hΓ hc

/-! ## Whole runs -/

/-- A reading of a type is an instance of it, up to the order of fields. -/
theorem Valuation.exists_instance (φ : Valuation) (t : Ty) :
    ∃ ρ : Subst, ρ.Respects ∧ (t.subst ρ).norm = t.eval φ := by
  obtain ⟨ρ, hρ, hread⟩ := φ.exists_subst t.freeVars.toList
  exact ⟨ρ, hρ, hread t fun _ hv => hv⟩

/-- With stems of one character and closed schemes, inference succeeds for every expression that has
a type. The inferred type is one of its types, and each of them is an instance of it, up to the
order of fields. -/
theorem typeOf_principal (cfg : Config) (hcfg : cfg.SingleStems) (Γ : Env) (hΓ : Γ.Closed)
    (hk : ∀ σ ∈ Γ.values, σ.body.HasKind .free) (e : Expr) (st : RunState) (t' : Ty)
    (h : HasType Γ e t') :
    ∃ t st', typeOf Γ e cfg st = .ok t st' ∧ HasType Γ e t ∧
      ∃ ρ : Subst, ρ.Respects ∧ RowEquiv (t.subst ρ) t' := by
  have hrun := typeOf_yields cfg st.issued Γ e
  have hk := Env.kinded_iff.2 hk
  have hu := hΓ.uncaptured st.issued
  have hc := hΓ.covers .self
  cases hr : typeOf Γ e cfg st with
  | ok t st' =>
    obtain ⟨⟨s, t, hi, rfl⟩, -⟩ := hrun.of_ok rfl hr
    rw [Ty.subst_eq_self (hi.solved hcfg hΓ.over).2]
    obtain ⟨ψ, -, hψ⟩ := hi.general hcfg h hk hu hc
    obtain ⟨ρ, hρ, hn⟩ := ψ.exists_instance t
    exact ⟨t, st', rfl, hi.hasType hcfg hk hΓ, ρ, hρ, rowEquiv_iff.2 (hn.trans hψ)⟩
  | error f st' => exact ((hrun.of_error rfl hr).1.untypable hcfg h hk hu hc).elim

/-- The selection of `x`, bound to a name. -/
def namedSelection : Expr := .letIn "f" (.prim (.select "x")) (.var "f")

/-- A type of the selection: the fields stand in another order than in its scheme. -/
def selectionType : Ty :=
  .fn (.record (.rowExtend "y" .bool (.rowExtend "x" .int .rowEmpty))) .int

theorem typeOf_principal_namedSelection :
    Config.SingleStems {} ∧ Env.Closed .empty ∧ HasType .empty namedSelection selectionType ∧
      ∃ t st', typeOf .empty namedSelection {} { issued := 3 } = .ok t st' ∧
        HasType .empty namedSelection t ∧
        ∃ ρ : Subst, ρ.Respects ∧ RowEquiv (t.subst ρ) selectionType := by
  have hcfg : Config.SingleStems {} := ⟨rfl, rfl⟩
  have hΓ : Env.Closed .empty := by decide
  have hk : ∀ σ ∈ (OrderedMap.empty : Env).values, σ.body.HasKind .free := by decide
  have hbound : HasType .empty (.prim (.select "x"))
      (.fn (Prim.recordType "x") (.var Prim.fieldVar)) :=
    .prim rfl ⟨.empty, .empty, by decide, (Ty.subst_empty _).symm⟩
  have hbody : HasType (Env.extend .empty "f" ⟨[Prim.fieldVar, Prim.rowVar "x"],
      .fn (Prim.recordType "x") (.var Prim.fieldVar)⟩) (.var "f") selectionType := by
    have hρ : Subst.Respects (OrderedMap.insert (.singleton Prim.fieldVar .int) (Prim.rowVar "x")
        (.rowExtend "y" .bool .rowEmpty)) :=
      (Subst.Respects.singleton (by decide)).insert (by decide)
    exact .reorder (.var rfl ⟨_, hρ, by decide, rfl⟩) (.fn (.record (.swap (by decide))) (.refl _))
  have h : HasType .empty namedSelection selectionType :=
    .letIn hbound (fun u => by simpa [Prim.recordType, Env.mem_freeVars] using Or.inl) hbody
  exact ⟨hcfg, hΓ, h, typeOf_principal {} hcfg .empty hΓ hk _ _ _ h⟩

end RowTyping
