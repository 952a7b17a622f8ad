import Mathlib.Data.List.Nodup
import RowTyping.Proofs.Binding
import RowTyping.Proofs.Infer.Relation
import RowTyping.Proofs.Schemes
import RowTyping.Proofs.Unify.Supply

/-!
# The variables of inference

With stems of one character, a run never issues a name twice: the names it issues end in the
numbers that it counts (`Inferred.namedFrom`). So what inference takes away never comes back. The
substitution it returns is solved and has nothing to do in the type it returns
(`Inferred.solved`), and both mention only variables that are free in the environment or were
issued on the way (`Inferred.over`). Types need not be well kinded for this.
-/

namespace RowTyping

/-! ## Names -/

theorem NamedFrom.mono {S S' : String → Prop} (hS : ∀ stem, S stem → S' stem) {n : Nat}
    {vs : List TyVar} (h : NamedFrom S n vs) : NamedFrom S' n vs := by
  induction vs generalizing n with
  | nil => trivial
  | cons v vs ih => exact ⟨h.1.mono hS fun _ hk => hk, ih h.2⟩

theorem TyVar.length_stem_le (v : TyVar) : v.stem.length ≤ 1 := by
  rw [stem, String.length_ofList, List.length_take]
  exact Nat.min_le_left ..

namespace Config

variable {cfg : Config}

theorem single_stemFor (h : SingleStem cfg.typeStem) {stem : String} (hs : stem.length ≤ 1) :
    SingleStem (cfg.stemFor stem) := by
  unfold stemFor
  split
  · exact h
  · next hne =>
    have hpos : stem.length ≠ 0 := fun h0 => hne (String.length_eq_zero_iff.1 h0)
    unfold SingleStem
    omega

theorem length_ownStem_le (h : cfg.SingleStems) (v : TyVar) : (cfg.ownStem v).length ≤ 1 := by
  unfold ownStem
  split
  · exact Nat.le_of_eq h.type
  · exact Nat.le_of_eq h.row

theorem copies_namedFrom (h : SingleStem cfg.typeStem) {stem : TyVar → String}
    (hs : ∀ v, (stem v).length ≤ 1) (n : Nat) (us : List TyVar) :
    NamedFrom SingleStem n (cfg.copies stem n us) := by
  induction us generalizing n with
  | nil => trivial
  | cons v us ih => exact ⟨⟨_, n, single_stemFor h (hs v), rfl, rfl⟩, ih (n + 1)⟩

theorem typeVar_single (h : cfg.SingleStems) (n : Nat) :
    (cfg.typeVar n).Numbered SingleStem (· = n) :=
  (cfg.typeVar_numbered n).mono h.ownStem fun _ hk => hk

end Config

section Names

variable {gen : Env → Ty → Scheme} {cfg : Config} (hcfg : cfg.SingleStems)

include hcfg

theorem Inferred.namedFrom {n : Nat} {Γ : Env} {e : Expr} {vs : List TyVar} {s : Subst} {t : Ty}
    (h : Inferred gen cfg n Γ e vs s t) : NamedFrom SingleStem n vs := by
  induction h with
  | var => exact cfg.copies_namedFrom hcfg.type TyVar.length_stem_le _ _
  | prim => exact cfg.copies_namedFrom hcfg.type (cfg.length_ownStem_le hcfg) _ _
  | app _ _ hu ih₁ ih₂ =>
    exact ih₁.append (ih₂.append ⟨cfg.typeVar_single hcfg _, hu.namedFrom.mono hcfg.ownStem⟩)
  | abs _ ih => exact ⟨cfg.typeVar_single hcfg _, ih⟩
  | letIn _ _ ih₁ ih₂ => exact ih₁.append ih₂

theorem Rejected.namedFrom {n : Nat} {Γ : Env} {e : Expr} {vs : List TyVar} {f : Fault}
    (h : Rejected gen cfg n Γ e vs f) : NamedFrom SingleStem n vs := by
  induction h with
  | unbound => trivial
  | prim => trivial
  | hole => trivial
  | appFunc _ ih => exact ih
  | appArg h₁ _ ih => exact (h₁.namedFrom hcfg).append ih
  | appUnify h₁ h₂ hr =>
    exact (h₁.namedFrom hcfg).append ((h₂.namedFrom hcfg).append
      ⟨cfg.typeVar_single hcfg _, hr.namedFrom.mono hcfg.ownStem⟩)
  | abs _ ih => exact ⟨cfg.typeVar_single hcfg _, ih⟩
  | letBound _ ih => exact ih
  | letBody h₁ _ ih => exact (h₁.namedFrom hcfg).append ih

end Names

namespace TyVar

/-- The variable cannot be issued when `n` variables have been issued, whatever the stem. -/
def Past (n : Nat) (v : TyVar) : Prop := ¬v.Numbered SingleStem (n ≤ ·)

theorem Past.mono {n m : Nat} {v : TyVar} (h : v.Past n) (hnm : n ≤ m) : v.Past m :=
  fun hm => h (hm.mono (fun _ hs => hs) fun _ hk => Nat.le_trans hnm hk)

theorem past_of_issued {n : Nat} {vs : List TyVar} (hvs : NamedFrom SingleStem n vs) {v : TyVar}
    (hv : v ∈ vs) : v.Past (n + vs.length) := by
  intro hm
  obtain ⟨k, hk, hk'⟩ := (hvs.numbered hv).meet (fun _ hs => hs) (fun _ hs => hs) hm
  omega

theorem Past.not_issued {n : Nat} {v : TyVar} (h : v.Past n) {vs : List TyVar}
    (hvs : NamedFrom SingleStem n vs) : v ∉ vs :=
  fun hv => h ((hvs.numbered hv).mono (fun _ hs => hs) fun _ hk => hk.1)

theorem Past.stale {cfg : Config} (hcfg : cfg.SingleStems) {n : Nat} {v : TyVar} (h : v.Past n) :
    cfg.Stale n v := fun hm => h (hm.mono hcfg.ownStem fun _ hk => hk)

section TypeVar

variable {cfg : Config} (hcfg : cfg.SingleStems) {n : Nat}

include hcfg

theorem typeVar_namedFrom : NamedFrom SingleStem n [cfg.typeVar n] :=
  ⟨cfg.typeVar_single hcfg n, trivial⟩

theorem typeVar_past : (cfg.typeVar n).Past (n + 1) :=
  past_of_issued (typeVar_namedFrom hcfg) List.mem_cons_self

theorem Past.ne_typeVar {v : TyVar} (h : v.Past n) : v ≠ cfg.typeVar n := by
  rintro rfl
  exact h.not_issued (typeVar_namedFrom hcfg) List.mem_cons_self

end TypeVar

end TyVar

/-! ## Mentioned variables -/

namespace Config

variable (cfg : Config) (stem : TyVar → String)

theorem app_copying_of_not_mem {n : Nat} {us : List TyVar} {s : Subst} {v : TyVar} (hv : v ∉ us) :
    (cfg.copying stem n us s).app v = s.app v := by
  induction us generalizing n s with
  | nil => rfl
  | cons u us ih =>
    rw [List.mem_cons, not_or] at hv
    refine (ih hv.2).trans ?_
    rw [Subst.app, OrderedMap.get?_insert, if_neg hv.1]
    rfl

/-- The last copy of a variable takes its place. -/
theorem app_copying_of_mem {n : Nat} {us : List TyVar} {s : Subst} {v : TyVar} (hv : v ∈ us) :
    ∃ w ∈ cfg.copies stem n us, w.constraint = v.constraint ∧
      (cfg.copying stem n us s).app v = .var w := by
  induction us generalizing n s with
  | nil => cases hv
  | cons u us ih =>
    by_cases h : v ∈ us
    · obtain ⟨w, hw, he⟩ := ih (n := n + 1) h
      exact ⟨w, List.mem_cons_of_mem _ hw, he⟩
    · obtain rfl := (List.mem_cons.1 hv).resolve_right h
      refine ⟨_, List.mem_cons_self, rfl, (cfg.app_copying_of_not_mem stem h).trans ?_⟩
      exact Subst.app_of_get? ((OrderedMap.get?_insert ..).trans (if_pos rfl))

theorem copy_over {P : TyVar → Prop} {n : Nat} {σ : Scheme} (hσ : σ.Over P)
    (hvs : ∀ v ∈ cfg.copies stem n σ.vars, P v) : (cfg.copy stem n σ).Over P := by
  intro v hv
  obtain ⟨u, hu, hvu⟩ := Ty.mem_freeVars_subst.1 hv
  by_cases hus : u ∈ σ.vars
  · obtain ⟨w, hw, -, he⟩ := cfg.app_copying_of_mem stem (n := n) (s := .empty) hus
    rw [he, Ty.mem_freeVars_var] at hvu
    exact hvu ▸ hvs w hw
  · rw [cfg.app_copying_of_not_mem stem hus, Subst.app_empty, Ty.mem_freeVars_var] at hvu
    exact hσ v (hvu ▸ Scheme.mem_freeVars.2 ⟨hu, hus⟩)

end Config

/-- Inference mentions only issued variables and those that are free in the schemes of the free
names of the expression. -/
theorem Inferred.over_used {cfg : Config} {n : Nat} {Γ : Env} {e : Expr} {vs : List TyVar}
    {s : Subst} {t : Ty} (h : Inferred Env.generalize cfg n Γ e vs s t) {P : TyVar → Prop}
    (hΓ : ∀ x ∈ e.freeNames, ∀ σ, Γ.get? x = some σ → σ.Over P) (hvs : ∀ v ∈ vs, P v) :
    s.Over P ∧ t.Over P := by
  -- For any `P`, so that one induction gives both what is past and what is disjoint.
  have hsubst : ∀ {Γ : Env} {s : Subst} {x : String} {τ : Scheme}, s.Over P →
      (∀ σ, Γ.get? x = some σ → σ.Over P) → (Γ.subst s).get? x = some τ → τ.Over P := by
    intro Γ s x τ hs hx hτ
    rw [Env.get?_subst] at hτ
    obtain ⟨σ, hσ, rfl⟩ := Option.map_eq_some_iff.1 hτ
    exact Scheme.Over.subst fun v hv => Ty.Over.subst (Ty.over_var.2 (hx σ hσ v hv)) hs
  have hextend : ∀ {Γ : Env} {x y : String} {σ : Scheme} {xs : List String}, σ.Over P →
      (∀ z ∈ xs.filter (· ≠ x), ∀ τ, Γ.get? z = some τ → τ.Over P) → y ∈ xs →
      ∀ τ, (Γ.extend x σ).get? y = some τ → τ.Over P := by
    intro Γ x y σ xs hσ hΓ hy τ hτ
    rw [Env.get?_extend] at hτ
    split at hτ
    · cases hτ; exact hσ
    · next hyx => exact hΓ y (List.mem_filter.2 ⟨hy, by simpa using hyx⟩) τ hτ
  induction h with
  | var hx => exact ⟨.empty, cfg.copy_over _ (hΓ _ (by simp [Expr.freeNames]) _ hx) hvs⟩
  | prim hp =>
    exact ⟨.empty, cfg.copy_over _ (fun v hv => absurd hv (Prim.scheme?_closed hp v)) hvs⟩
  | app _ _ hu ih₁ ih₂ =>
    simp only [List.mem_append, List.mem_cons] at hvs
    simp only [Expr.freeNames, List.mem_append] at hΓ
    obtain ⟨hs₁, ht₁⟩ := ih₁ (fun x hx => hΓ x (.inl hx)) fun v hv => hvs v (.inl hv)
    obtain ⟨hs₂, ht₂⟩ := ih₂ (fun x hx τ => hsubst hs₁ (hΓ x (.inr hx))) fun v hv =>
      hvs v (.inr (.inl hv))
    have hγ := Ty.over_var.2 (hvs _ (.inr (.inr (.inl rfl))))
    have hs₃ := hu.over (ht₁.subst hs₂) (Ty.over_fn.2 ⟨ht₂, hγ⟩) fun v hv =>
      hvs v (.inr (.inr (.inr hv)))
    exact ⟨hs₃.compose (hs₂.compose hs₁), hγ.subst hs₃⟩
  | abs _ ih =>
    have hα := Ty.over_var.2 (hvs _ List.mem_cons_self)
    obtain ⟨hs, ht⟩ := ih (fun y => hextend (Scheme.over_mono.2 hα) hΓ) fun v hv =>
      hvs v (List.mem_cons_of_mem _ hv)
    exact ⟨hs, Ty.over_fn.2 ⟨hα.subst hs, ht⟩⟩
  | letIn _ _ ih₁ ih₂ =>
    simp only [List.mem_append] at hvs
    obtain ⟨hs₁, ht₁⟩ := ih₁ (fun x hx => hΓ x (List.mem_append_left _ hx)) fun v hv =>
      hvs v (.inl hv)
    obtain ⟨hs₂, ht₂⟩ := ih₂
      (fun y hy τ => hsubst hs₁ (hextend (Env.over_generalize ht₁)
        (fun z hz => hΓ z (List.mem_append_right _ hz)) hy)) fun v hv => hvs v (.inr hv)
    exact ⟨hs₂.compose hs₁, ht₂⟩

/-- Inference mentions only free variables of the environment and issued ones. -/
theorem Inferred.over {cfg : Config} {n : Nat} {Γ : Env} {e : Expr} {vs : List TyVar} {s : Subst}
    {t : Ty} (h : Inferred Env.generalize cfg n Γ e vs s t) {P : TyVar → Prop} (hΓ : Γ.Over P)
    (hvs : ∀ v ∈ vs, P v) : s.Over P ∧ t.Over P :=
  h.over_used (fun x _ σ hx => Env.over_iff.1 hΓ x σ hx) hvs

/-! ## Solved substitutions -/

section Solved

variable {cfg : Config} (hcfg : cfg.SingleStems) {n : Nat} {Γ : Env} {e : Expr}
  {vs : List TyVar} {s : Subst} {t : Ty}

include hcfg

theorem Inferred.past (h : Inferred Env.generalize cfg n Γ e vs s t) (hΓ : Γ.Over (·.Past n)) :
    s.Over (·.Past (n + vs.length)) ∧ t.Over (·.Past (n + vs.length)) :=
  h.over (fun v hv => (hΓ v hv).mono (Nat.le_add_right ..)) fun _ hv =>
    TyVar.past_of_issued (h.namedFrom hcfg) hv

/-- Inference behind a solved substitution does not touch what that one took away. -/
theorem Inferred.disjoint {s₀ : Subst} (h : Inferred Env.generalize cfg n (Γ.subst s₀) e vs s t)
    (hs₀ : s₀.Solved) (hp₀ : s₀.Over (·.Past n)) :
    s.Over (· ∉ s₀.keys) ∧ t.Over (· ∉ s₀.keys) :=
  h.over (Env.over_not_mem_keys hs₀) fun v hv hk =>
    (hp₀ v (Subst.mentions_of_mem_keys hk)).not_issued (h.namedFrom hcfg) hv

section App

variable {f a : Expr} {vs₁ vs₂ vs₃ : List TyVar} {s₁ s₂ s₃ : Subst} {t₁ t₂ : Ty}
  (h₁ : Inferred Env.generalize cfg n Γ f vs₁ s₁ t₁)
  (h₂ : Inferred Env.generalize cfg (n + vs₁.length) (Γ.subst s₁) a vs₂ s₂ t₂)
  (hΓ : Γ.Over (·.Past n))

include h₁ h₂ hΓ

theorem Inferred.app_past :
    (Γ.subst s₁).Over (·.Past (n + vs₁.length)) ∧
      (s₂.compose s₁).Over (·.Past (n + vs₁.length + vs₂.length)) ∧
      (t₁.subst s₂).Over (·.Past (n + vs₁.length + vs₂.length)) ∧
      t₂.Over (·.Past (n + vs₁.length + vs₂.length)) := by
  obtain ⟨hs₁, ht₁⟩ := h₁.past hcfg hΓ
  have hΓ₁ : (Γ.subst s₁).Over (·.Past (n + vs₁.length)) :=
    Env.Over.subst (fun v hv => (hΓ v hv).mono (Nat.le_add_right ..)) hs₁
  obtain ⟨hs₂, ht₂⟩ := h₂.past hcfg hΓ₁
  exact ⟨hΓ₁, hs₂.compose fun v hv => (hs₁ v hv).mono (Nat.le_add_right ..),
    Ty.Over.subst (fun v hv => (ht₁ v hv).mono (Nat.le_add_right ..)) hs₂, ht₂⟩

/-- The two types that an application unifies cannot be issued any more. -/
theorem Inferred.app_stale :
    (t₁.subst s₂).Over (cfg.Stale (n + vs₁.length + vs₂.length + 1)) ∧
      (Ty.fn t₂ (.var (cfg.typeVar (n + vs₁.length + vs₂.length)))).Over
        (cfg.Stale (n + vs₁.length + vs₂.length + 1)) := by
  obtain ⟨-, -, ht₁, ht₂⟩ := h₁.app_past hcfg h₂ hΓ
  exact ⟨fun v hv => ((ht₁ v hv).mono (Nat.le_succ _)).stale hcfg,
    Ty.over_fn.2 ⟨fun v hv => ((ht₂ v hv).mono (Nat.le_succ _)).stale hcfg,
      Ty.over_var.2 ((TyVar.typeVar_past hcfg).stale hcfg)⟩⟩

/-- The unifier of an application does not touch what the two parts took away. -/
theorem Inferred.app_disjoint
    (hu : Unified cfg (n + vs₁.length + vs₂.length + 1) (t₁.subst s₂)
      (.fn t₂ (.var (cfg.typeVar (n + vs₁.length + vs₂.length)))) vs₃ s₃)
    (hs₁ : s₁.Solved) (ht₁ : t₁.Over (· ∉ s₁.keys)) (hs₂ : s₂.Solved)
    (ht₂ : t₂.Over (· ∉ s₂.keys)) :
    (Ty.var (cfg.typeVar (n + vs₁.length + vs₂.length))).Over (· ∉ (s₂.compose s₁).keys) ∧
      s₃.Over (· ∉ (s₂.compose s₁).keys) := by
  obtain ⟨-, hp, -, -⟩ := h₁.app_past hcfg h₂ hΓ
  obtain ⟨hd₂, hdt₂⟩ := h₂.disjoint hcfg hs₁ (h₁.past hcfg hΓ).1
  have hvs : NamedFrom SingleStem (n + vs₁.length + vs₂.length)
      (cfg.typeVar (n + vs₁.length + vs₂.length) :: vs₃) :=
    ⟨cfg.typeVar_single hcfg _, hu.namedFrom.mono hcfg.ownStem⟩
  have hnew : ∀ v ∈ cfg.typeVar (n + vs₁.length + vs₂.length) :: vs₃,
      v ∉ (s₂.compose s₁).keys := fun v hv hk =>
    (hp v (Subst.mentions_of_mem_keys hk)).not_issued hvs hv
  have hγ : (Ty.var (cfg.typeVar (n + vs₁.length + vs₂.length))).Over
      (· ∉ (s₂.compose s₁).keys) := Ty.over_var.2 (hnew _ List.mem_cons_self)
  refine ⟨hγ, hu.over ?_ (Ty.over_fn.2 ⟨ht₂.not_mem_compose hdt₂, hγ⟩) fun v hv =>
    hnew v (List.mem_cons_of_mem _ hv)⟩
  exact (hs₂.over_subst t₁).not_mem_compose (ht₁.subst hd₂)

end App

/-- Inference returns a solved substitution and a type in which nothing is left to replace. -/
theorem Inferred.solved (h : Inferred Env.generalize cfg n Γ e vs s t) (hΓ : Γ.Over (·.Past n)) :
    s.Solved ∧ t.Over (· ∉ s.keys) := by
  induction h with
  | var => exact ⟨.empty, fun v _ hv => by cases hv⟩
  | prim => exact ⟨.empty, fun v _ hv => by cases hv⟩
  | @app n Γ f a vs₁ vs₂ vs₃ s₁ s₂ s₃ t₁ t₂ h₁ h₂ hu ih₁ ih₂ =>
    obtain ⟨hs₁, ht₁⟩ := ih₁ hΓ
    obtain ⟨hs₂, ht₂⟩ := ih₂ (h₁.app_past hcfg h₂ hΓ).1
    obtain ⟨hd₂, -⟩ := h₂.disjoint hcfg hs₁ (h₁.past hcfg hΓ).1
    obtain ⟨hγ, hd₃⟩ := h₁.app_disjoint hcfg h₂ hΓ hu hs₁ ht₁ hs₂ ht₂
    obtain ⟨hq₁, hq₂⟩ := h₁.app_stale hcfg h₂ hΓ
    have hs₃ := (hu.settled hcfg hq₁ hq₂).solved
    exact ⟨hs₃.compose (hs₂.compose hs₁ hd₂) hd₃,
      (hs₃.over_subst _).not_mem_compose (hγ.subst hd₃)⟩
  | @abs n Γ x e vs s t _ ih =>
    have hα : (Scheme.mono (.var (cfg.typeVar n))).Over (·.Past (n + 1)) :=
      Scheme.over_mono.2 (Ty.over_var.2 (TyVar.typeVar_past hcfg))
    have hΓ₁ : Γ.Over (·.Past (n + 1)) := fun v hv => (hΓ v hv).mono (Nat.le_succ n)
    obtain ⟨hs, ht⟩ := ih (hΓ₁.extend x hα)
    exact ⟨hs, Ty.over_fn.2 ⟨hs.over_subst _, ht⟩⟩
  | @letIn n Γ x e₁ e₂ vs₁ vs₂ s₁ s₂ t₁ t₂ h₁ h₂ ih₁ ih₂ =>
    obtain ⟨hs₁, -⟩ := ih₁ hΓ
    obtain ⟨hp₁, hpt₁⟩ := h₁.past hcfg hΓ
    have hΓ₁ : Γ.Over (·.Past (n + vs₁.length)) := fun v hv =>
      (hΓ v hv).mono (Nat.le_add_right ..)
    obtain ⟨hs₂, ht₂⟩ := ih₂ ((hΓ₁.extend x (Env.over_generalize hpt₁)).subst hp₁)
    obtain ⟨hd₂, hdt₂⟩ := h₂.disjoint hcfg hs₁ hp₁
    exact ⟨hs₂.compose hs₁ hd₂, ht₂.not_mem_compose hdt₂⟩

/-- The type of an expression is the inferred one: in it, nothing is left to replace. -/
theorem typeOf_ends {r : Except Fault (Subst × Ty)} (hΓ : Γ.Over (·.Past n))
    (h : Ends cfg (infer Γ e) n vs r) : Ends cfg (typeOf Γ e) n vs (r.map Prod.snd) := by
  cases r with
  | error f => exact h.bind_error
  | ok p =>
    have hi : Inferred Env.generalize cfg n Γ e vs p.1 p.2 := (infer_yields ..).of_ends_ok h
    have hend := h.map fun p => p.2.subst p.1
    rw [Except.map, Ty.subst_eq_self (hi.solved hcfg hΓ).2] at hend
    exact hend

section Apart

variable {e₁ e₂ : Expr} {Γ₁ : Env} {vs₁ vs₂ vs₃ : List TyVar} {s₁ s₂ s₃ : Subst} {t₁ t₂ : Ty}
  (h₁ : Inferred Env.generalize cfg n Γ e₁ vs₁ s₁ t₁) (hΓ : Γ.Over (·.Past n))

include h₁ hΓ

/-- Inference behind inference binds other variables. -/
theorem Inferred.keys_apart
    (h₂ : Inferred Env.generalize cfg (n + vs₁.length) (Γ₁.subst s₁) e₂ vs₂ s₂ t₂) :
    ∀ v ∈ s₂.keys, v ∉ s₁.keys := fun v hv =>
  (h₂.disjoint hcfg (h₁.solved hcfg hΓ).1 (h₁.past hcfg hΓ).1).1 v (Subst.mentions_of_mem_keys hv)

/-- The unifier of an application binds other variables than its two parts. -/
theorem Inferred.unifier_apart
    (h₂ : Inferred Env.generalize cfg (n + vs₁.length) (Γ.subst s₁) e₂ vs₂ s₂ t₂)
    (hu : Unified cfg (n + vs₁.length + vs₂.length + 1) (t₁.subst s₂)
      (.fn t₂ (.var (cfg.typeVar (n + vs₁.length + vs₂.length)))) vs₃ s₃) :
    ∀ v ∈ s₃.keys, v ∉ (s₂.compose s₁).keys := by
  obtain ⟨hs₁, ht₁⟩ := h₁.solved hcfg hΓ
  obtain ⟨hs₂, ht₂⟩ := h₂.solved hcfg (h₁.app_past hcfg h₂ hΓ).1
  exact fun v hv => (h₁.app_disjoint hcfg h₂ hΓ hu hs₁ ht₁ hs₂ ht₂).2 v
    (Subst.mentions_of_mem_keys hv)

end Apart

end Solved

/-! ## Whole runs -/

/-- With stems of one character, a run that starts from closed schemes issues each name once. If it
succeeds, it returns a substitution and a type over the variables that it issued; the substitution
is solved and has nothing to do in the type, and no two variables of the type have one name. -/
theorem infer_fresh (cfg : Config) (hcfg : cfg.SingleStems) (st : RunState) (Γ : Env)
    (hΓ : Γ.Closed) (e : Expr) :
    (((infer Γ e).issuedBy cfg st).map TyVar.name).Nodup ∧
      ∀ s t st', infer Γ e cfg st = .ok (s, t) st' →
        Issues cfg.trace st ((infer Γ e).issuedBy cfg st) st' ∧
          s.Over (· ∈ (infer Γ e).issuedBy cfg st) ∧ t.Over (· ∈ (infer Γ e).issuedBy cfg st) ∧
          s.Solved ∧ t.subst s = t ∧
          ∀ u ∈ t.freeVars, ∀ v ∈ t.freeVars, u.name = v.name → u = v := by
  have hrun := infer_yields cfg st.issued Γ e
  have hnd : (((infer Γ e).issuedBy cfg st).map TyVar.name).Nodup := by
    refine NamedFrom.nodup (fun _ hs => hs) (n := st.issued) ?_
    cases hr : infer Γ e cfg st with
    | ok r st' => exact (hrun.of_ok rfl hr).1.namedFrom hcfg
    | error f st' => exact (hrun.of_error rfl hr).1.namedFrom hcfg
  refine ⟨hnd, fun s t st' hr => ?_⟩
  obtain ⟨hi, his⟩ := hrun.of_ok rfl hr
  obtain ⟨hs, ht⟩ := hi.over (P := (· ∈ (infer Γ e).issuedBy cfg st)) hΓ.over fun _ hv => hv
  obtain ⟨hsol, hts⟩ := hi.solved hcfg hΓ.over
  exact ⟨his, hs, ht, hsol, Ty.subst_eq_self hts, fun u hu v hv huv =>
    List.inj_on_of_nodup_map hnd (ht u hu) (ht v hv) huv⟩

/-- An identity whose scheme quantifies a name that is issued as well, and an empty name. -/
def clashingIdentity : Env :=
  .singleton "id" ⟨[⟨"a9", .free⟩, ⟨"", .lacks .empty⟩],
    .fn (.var ⟨"a9", .free⟩) (.var ⟨"a9", .free⟩)⟩

/-- A polymorphic use of the identity behind a selection. -/
def selectPoly : Expr :=
  .letIn "get" (.abs "r" (.app (.var "id") (.app (.prim (.select "x")) (.var "r")))) (.var "get")

theorem infer_fresh_selectPoly :
    Config.SingleStems {} ∧ clashingIdentity.Closed ∧
      (((infer clashingIdentity selectPoly).issuedBy {} { issued := 7 }).map TyVar.name).Nodup ∧
      ∃ s t st', infer clashingIdentity selectPoly {} { issued := 7 } = .ok (s, t) st' ∧
        s.Over (· ∈ (infer clashingIdentity selectPoly).issuedBy {} { issued := 7 }) ∧
        s.keys.length = 4 ∧ s.Solved ∧ t.subst s = t ∧ t.freeVars.toList.length = 2 := by
  have hcfg : Config.SingleStems {} := ⟨rfl, rfl⟩
  have hΓ : clashingIdentity.Closed := by decide
  obtain ⟨hnd, h⟩ := infer_fresh {} hcfg { issued := 7 } _ hΓ selectPoly
  obtain ⟨-, hs, -, hsol, hts, -⟩ := h _ _ _ rfl
  exact ⟨hcfg, hΓ, hnd, _, _, _, rfl, hs, by decide +kernel, hsol, hts, by decide +kernel⟩

end RowTyping
