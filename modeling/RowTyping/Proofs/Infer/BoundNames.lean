import RowTyping.Proofs.Infer.Scope
import RowTyping.Proofs.Twins

/-!
# Bound names do not matter

Inference asks an environment for the schemes of the free names of an expression and for nothing
else. It also looks at all free variables of the environment, where `let` generalizes a type; but
the variables of a type come from the schemes of free names or are new, so bindings of other names
make no difference there (`Inferred.usedIn`).

So two runs on expressions that differ in bound names only, in environments that agree on free
names, issue the same variables and end in the same way (`infer_alpha`).
-/

namespace RowTyping

open InferM

/-- The variable is free in the scheme of a free name of the expression. -/
def Env.UsedIn (Γ : Env) (e : Expr) (v : TyVar) : Prop :=
  ∃ x ∈ e.freeNames, ∃ σ, Γ.get? x = some σ ∧ v ∈ σ.freeVars

/-- A variable that a type shares with the environment is free in the scheme of a free name. -/
theorem Inferred.usedIn {cfg : Config} (hcfg : cfg.SingleStems) {n : Nat} {Γ : Env} {e : Expr}
    {vs : List TyVar} {s : Subst} {t : Ty} (h : Inferred Env.generalize cfg n Γ e vs s t)
    (hΓ : Γ.Uncaptured n) {v : TyVar} (hv : v ∈ t.freeVars) (hvΓ : v ∈ (Γ.subst s).freeVars) :
    (Γ.subst s).UsedIn e v := by
  obtain ⟨hs, ht⟩ : s.Over (fun w => Γ.UsedIn e w ∨ ¬w.Past n) ∧
      t.Over (fun w => Γ.UsedIn e w ∨ ¬w.Past n) :=
    h.over_used (fun x hx σ hσ w hw => .inl ⟨x, hx, σ, hσ, hw⟩) fun w hw =>
      .inr fun hp => hp.not_issued (h.namedFrom hcfg) hw
  obtain ⟨y, τ, hy, hvτ⟩ := Env.mem_freeVars.1 hvΓ
  rw [Env.get?_subst] at hy
  obtain ⟨τ₀, hτ₀, rfl⟩ := Option.map_eq_some_iff.1 hy
  obtain ⟨-, w, hw, hvw⟩ := Scheme.mem_freeVars_subst.1 hvτ
  have hwΓ : w ∈ Γ.freeVars := Env.mem_freeVars.2 ⟨y, τ₀, hτ₀, hw⟩
  -- Whether `w` is replaced or not, inference mentions it.
  have hused : Γ.UsedIn e w ∨ ¬w.Past n := by
    by_cases hk : w ∈ s.keys
    · exact hs w (Subst.mentions_of_mem_keys hk)
    · rw [Subst.app_of_not_mem hk, Ty.mem_freeVars_var] at hvw
      exact hvw ▸ ht v hv
  obtain ⟨x, hx, σ, hσ, hwσ⟩ := hused.resolve_right fun hp => hp (hΓ.past w hwΓ)
  refine ⟨x, hx, σ.subst s, by rw [Env.get?_subst, hσ]; rfl, ?_⟩
  refine Scheme.mem_freeVars_subst.2 ⟨fun hq => ?_, w, hwσ, hvw⟩
  rcases hΓ.not_reaches hσ with hc | hq'
  · rw [hc] at hwσ
    exact OrdSet.not_mem_empty w hwσ
  · have hreach : (Ty.var w).Over (Γ.Reaches n) := Ty.over_var.2 (.inl hwΓ)
    exact hq' v hq (hreach.subst (h.reaches hcfg).1 v hvw)

/-- Names that are paired by binders, or free, have the same scheme. -/
def Env.Agree (l : List (String × String)) (xs : List String) (Γ Γ' : Env) : Prop :=
  ∀ x ∈ xs, ∀ y, Expr.Paired l x y → Γ.get? x = Γ'.get? y ∧ (Γ.get? x = none → x = y)

namespace Env.Agree

variable {l : List (String × String)} {xs ys : List String} {Γ Γ' : Env}

theorem mono (h : Agree l xs Γ Γ') (hys : ∀ x ∈ ys, x ∈ xs) : Agree l ys Γ Γ' :=
  fun x hx => h x (hys x hx)

theorem subst (h : Agree l xs Γ Γ') (s : Subst) : Agree l xs (Γ.subst s) (Γ'.subst s) := by
  intro x hx y hxy
  obtain ⟨he, hn⟩ := h x hx y hxy
  rw [Env.get?_subst, Env.get?_subst, he]
  refine ⟨rfl, fun hnone => hn ?_⟩
  rw [he]
  exact Option.map_eq_none_iff.1 hnone

theorem extend {x y : String} (h : Agree l (xs.filter (· ≠ x)) Γ Γ') (σ : Scheme) :
    Agree ((x, y) :: l) xs (Γ.extend x σ) (Γ'.extend y σ) := by
  intro z hz w hzw
  rw [Env.get?_extend, Env.get?_extend]
  rcases hzw with ⟨rfl, rfl⟩ | ⟨hzx, hwy, hzw⟩
  · rw [if_pos rfl, if_pos rfl]
    exact ⟨rfl, fun hnone => by cases hnone⟩
  · rw [if_neg hzx, if_neg hwy]
    exact h z (List.mem_filter.2 ⟨hz, by simpa using hzx⟩) w hzw

end Env.Agree

theorem Env.agree_nil {xs : List String} {Γ Γ' : Env} (h : ∀ x ∈ xs, Γ.get? x = Γ'.get? x) :
    Agree [] xs Γ Γ' := by
  rintro x hx _ rfl
  exact ⟨h x hx, fun _ => rfl⟩

section Run

variable {cfg : Config} (hcfg : cfg.SingleStems)

include hcfg

/-- Where `let` generalizes, environments that agree on the free names are as good as equal. -/
theorem Inferred.generalize_eq {l : List (String × String)} {n : Nat} {Γ Γ' : Env} {e e' : Expr}
    {vs : List TyVar} {s : Subst} {t : Ty} (h : Inferred Env.generalize cfg n Γ e vs s t)
    (he : Expr.Alpha l e e') (h' : Inferred Env.generalize cfg n Γ' e' vs s t) (hΓ : Γ.Uncaptured n)
    (hΓ' : Γ'.Uncaptured n) (hl : Env.Agree l e.freeNames Γ Γ') :
    (Γ'.subst s).generalize t = (Γ.subst s).generalize t := by
  have hl := hl.subst s
  have hmem : ∀ v, v ∈ t.freeVars \ (Γ'.subst s).freeVars ↔
      v ∈ t.freeVars \ (Γ.subst s).freeVars := by
    intro v
    rw [OrdSet.mem_diff, OrdSet.mem_diff]
    refine and_congr_right fun hv => not_congr ⟨fun hvΓ => ?_, fun hvΓ => ?_⟩
    · obtain ⟨y, hy, σ, hσ, hvσ⟩ := h'.usedIn hcfg hΓ' hv hvΓ
      obtain ⟨x, hx, hxy⟩ := he.exists_paired.2 y hy
      exact Env.mem_freeVars.2 ⟨x, σ, (hl x hx y hxy).1.trans hσ, hvσ⟩
    · obtain ⟨x, hx, σ, hσ, hvσ⟩ := h.usedIn hcfg hΓ hv hvΓ
      obtain ⟨y, -, hxy⟩ := he.exists_paired.1 x hx
      exact Env.mem_freeVars.2 ⟨y, σ, (hl x hx y hxy).1.symm.trans hσ, hvσ⟩
  unfold Env.generalize
  rw [OrdSet.ext hmem]

/-- Runs on expressions that differ in bound names only, in environments that agree on the free
names, issue the same variables and end in the same way. -/
theorem infer_alpha {l : List (String × String)} {e e' : Expr} (he : Expr.Alpha l e e') {n : Nat}
    {Γ Γ' : Env} (hΓ : Γ.Uncaptured n) (hΓ' : Γ'.Uncaptured n)
    (hl : Env.Agree l e.freeNames Γ Γ') : Agrees cfg n (infer Γ e) (infer Γ' e') := by
  induction he generalizing n Γ Γ' with
  | @var l x y hxy =>
    obtain ⟨hget, hnone⟩ := hl x (by simp [Expr.freeNames]) y hxy
    refine Twins.trace_bind rfl rfl ?_
    rw [← hget]
    cases hx : Γ.get? x with
    | none =>
      obtain rfl := hnone hx
      exact .fail ⟨rfl, rfl⟩
    | some σ =>
      have hσ : Yields cfg σ.instantiate n _ _ := Scheme.instantiate_yields σ
      exact (Agrees.refl hσ).bind hσ hσ fun vs t _ _ => .pure ⟨rfl, rfl⟩
  | @prim l p =>
    have hp : Yields cfg p.infer n _ _ := p.infer_yields
    exact Twins.trace_bind rfl rfl ((Agrees.refl hp).bind hp hp fun vs t _ _ => .pure ⟨rfl, rfl⟩)
  | @app l f f' a a' _ _ ihf iha =>
    have hlf := hl.mono fun x hx => List.mem_append_left a.freeNames hx
    have hla := hl.mono fun x hx => List.mem_append_right f.freeNames hx
    refine Twins.trace_bind rfl rfl ((ihf hΓ hΓ' hlf).bind (infer_yields ..) (infer_yields ..) ?_)
    rintro vs₁ ⟨s₁, t₁⟩ h₁ h₁'
    refine (iha (h₁.uncaptured hcfg hΓ) (h₁'.uncaptured hcfg hΓ') (hla.subst s₁)).bind
      (infer_yields ..) (infer_yields ..) ?_
    rintro vs₂ ⟨s₂, t₂⟩ - -
    refine Agrees.freshType_bind ?_
    have hu := unify_yields cfg (n + vs₁.length + vs₂.length + 1) (t₁.subst s₂)
      (.fn t₂ (.var (cfg.typeVar (n + vs₁.length + vs₂.length))))
    exact (Agrees.refl hu).bind hu hu fun _ _ _ _ => .pure ⟨rfl, rfl⟩
  | @abs l x y e e' _ ih =>
    refine Twins.trace_bind rfl rfl (Agrees.freshType_bind ?_)
    exact (ih (hΓ.extend_typeVar hcfg x) (hΓ'.extend_typeVar hcfg y) (hl.extend _)).bind
      (infer_yields ..) (infer_yields ..) fun _ _ _ _ => .pure ⟨rfl, rfl⟩
  | @letIn l x y e₁ e₁' e₂ e₂' he₁ _ ih₁ ih₂ =>
    have hl₁ := hl.mono fun z hz => List.mem_append_left (e₂.freeNames.filter (· ≠ x)) hz
    have hl₂ := hl.mono fun z hz => List.mem_append_right e₁.freeNames hz
    refine Twins.trace_bind rfl rfl ((ih₁ hΓ hΓ' hl₁).bind (infer_yields ..) (infer_yields ..) ?_)
    rintro vs₁ ⟨s₁, t₁⟩ h₁ h₁'
    show Agrees cfg _ (infer ((Γ.extend x ((Γ.subst s₁).generalize t₁)).subst s₁) e₂ >>= _)
      (infer ((Γ'.extend y ((Γ'.subst s₁).generalize t₁)).subst s₁) e₂' >>= _)
    have hlet := h₁.let_uncaptured hcfg hΓ x
    have hlet' := h₁'.let_uncaptured hcfg hΓ' y
    rw [h₁.let_env hcfg hΓ.past, h₁'.let_env hcfg hΓ'.past]
    rw [h₁.generalize_eq hcfg he₁ h₁' hΓ hΓ' hl₁] at hlet' ⊢
    exact (ih₂ hlet hlet' ((hl₂.subst s₁).extend _)).bind (infer_yields ..) (infer_yields ..)
      fun _ _ _ _ => .pure ⟨rfl, rfl⟩
  | hole => exact Twins.trace_bind rfl rfl (.throw ⟨rfl, rfl⟩)

theorem typeOf_alpha {l : List (String × String)} {e e' : Expr} (he : Expr.Alpha l e e') {n : Nat}
    {Γ Γ' : Env} (hΓ : Γ.Uncaptured n) (hΓ' : Γ'.Uncaptured n)
    (hl : Env.Agree l e.freeNames Γ Γ') : Agrees cfg n (typeOf Γ e) (typeOf Γ' e') :=
  (infer_alpha hcfg he hΓ hΓ' hl).bind (infer_yields ..) (infer_yields ..) fun _ _ _ _ =>
    .pure ⟨rfl, rfl⟩

end Run

/-- Inference does not depend on bound names, or on bindings of names that the expression does not
use. Whether it succeeds or fails, it ends with exactly the same, and it issues as many variables.
It never fails for want of depth. -/
theorem infer_invariant (cfg : Config) (hcfg : cfg.SingleStems) (st : RunState) (Γ Γ' : Env)
    (hΓ : Γ.Closed) (hΓ' : Γ'.Closed) (e e' : Expr) (he : e.AlphaEquiv e')
    (hnames : ∀ x ∈ e.freeNames, Γ.get? x = Γ'.get? x) :
    ∃ r st₁ st₂, r ≠ .error .outOfFuel ∧ infer Γ e cfg st = ending r st₁ ∧
      infer Γ' e' cfg st = ending r st₂ ∧ st₁.issued = st₂.issued := by
  have hagree := infer_alpha hcfg he (hΓ.uncaptured st.issued) (hΓ'.uncaptured st.issued)
    (Env.agree_nil hnames)
  obtain ⟨vs, r, -, hx⟩ := infer_yields cfg st.issued Γ e
  obtain ⟨st₁, hst₁, hi₁⟩ := hx cfg.trace st rfl
  obtain ⟨st₂, hst₂, hi₂⟩ := hagree.ends hx cfg.trace st rfl
  exact ⟨r, st₁, st₂, infer_ends_ne_outOfFuel hcfg (hΓ.uncaptured _) hx, hst₁, hst₂,
    hi₁.issued.trans hi₂.issued.symm⟩

/-- The bound names are those of `selectPoly` in other places: the parameter has the name that
`let` had, and `let` hides the identity that its own definition uses. -/
def swappedNames : Expr :=
  .letIn "id" (.abs "get" (.app (.var "id") (.app (.prim (.select "x")) (.var "get")))) (.var "id")

theorem infer_invariant_swappedNames :
    Config.SingleStems {} ∧ clashingIdentity.Closed ∧
      (clashingIdentity.extend "r" (.mono .int)).Closed ∧ selectPoly.AlphaEquiv swappedNames ∧
      selectPoly ≠ swappedNames ∧
      (∀ x ∈ selectPoly.freeNames,
        clashingIdentity.get? x = (clashingIdentity.extend "r" (.mono .int)).get? x) ∧
      ∃ r st₁ st₂, r ≠ .error .outOfFuel ∧
        infer clashingIdentity selectPoly {} { issued := 7 } = ending r st₁ ∧
        infer (clashingIdentity.extend "r" (.mono .int)) swappedNames {} { issued := 7 } =
          ending r st₂ ∧ st₁.issued = st₂.issued := by
  have hcfg : Config.SingleStems {} := ⟨rfl, rfl⟩
  have hΓ : clashingIdentity.Closed := by decide
  have hΓ' : (clashingIdentity.extend "r" (.mono .int)).Closed := by decide
  have he : selectPoly.AlphaEquiv swappedNames :=
    .letIn (.abs (.app (.var (by simp [Expr.Paired])) (.app .prim (.var (by simp [Expr.Paired])))))
      (.var (by simp [Expr.Paired]))
  have hnames : ∀ x ∈ selectPoly.freeNames,
      clashingIdentity.get? x = (clashingIdentity.extend "r" (.mono .int)).get? x := by decide
  exact ⟨hcfg, hΓ, hΓ', he, by decide, hnames,
    infer_invariant {} hcfg { issued := 7 } _ _ hΓ hΓ' _ _ he hnames⟩

end RowTyping
