import RowTyping.Proofs.Kinding

/-!
# Schemes and environments

Substituting into a scheme leaves its quantified variables alone, so what is free afterwards comes
from the types of the free variables (`Scheme.mem_freeVars_subst`). Whatever holds of the free
variables of an environment and of all the variables of a substitution holds of the free variables
of the substituted environment (`Env.Over.subst`). An environment is well kinded when the bodies of
its schemes are (`Env.Kinded`); respectful substitutions keep it so.
-/

namespace RowTyping

namespace Scheme

theorem mem_freeVars {σ : Scheme} {v : TyVar} :
    v ∈ σ.freeVars ↔ v ∈ σ.body.freeVars ∧ v ∉ σ.vars := by
  rw [freeVars, OrdSet.mem_filter]
  simp

@[simp] theorem mem_freeVars_mono {t : Ty} {v : TyVar} :
    v ∈ (mono t).freeVars ↔ v ∈ t.freeVars := by
  simp [mem_freeVars, mono]

/-- What a substitution does to the body of a scheme. -/
theorem app_filterKeys (σ : Scheme) (s : Subst) (v : TyVar) :
    Subst.app (s.filterKeys fun u => !decide (u ∈ σ.vars)) v =
      if v ∈ σ.vars then .var v else s.app v := by
  rw [Subst.app_filterKeys]
  by_cases h : v ∈ σ.vars <;> simp [h]

theorem mem_freeVars_subst {σ : Scheme} {s : Subst} {v : TyVar} :
    v ∈ (σ.subst s).freeVars ↔ v ∉ σ.vars ∧ ∃ u ∈ σ.freeVars, v ∈ (s.app u).freeVars := by
  rw [mem_freeVars, and_comm]
  refine and_congr_right fun hv => Ty.mem_freeVars_subst.trans ?_
  refine exists_congr fun u => ?_
  rw [app_filterKeys, mem_freeVars, and_assoc]
  refine and_congr_right fun _ => ?_
  by_cases hu : u ∈ σ.vars
  · have hvu : v ≠ u := fun h => hv (h ▸ hu)
    simp [hu, hvu]
  · simp [hu]

/-- There is nothing to replace in a closed scheme. -/
theorem subst_of_closed {σ : Scheme} (h : σ.freeVars = .empty) (s : Subst) : σ.subst s = σ := by
  refine congrArg (Scheme.mk σ.vars) (Ty.subst_eq_self fun v hv hk => ?_)
  rw [OrderedMap.keys_filterKeys, List.mem_filter] at hk
  refine OrdSet.not_mem_empty v (h ▸ mem_freeVars.2 ⟨hv, ?_⟩)
  simpa using hk.2

/-- All variables that are free in the scheme satisfy `P`. -/
def Over (P : TyVar → Prop) (σ : Scheme) : Prop := ∀ v ∈ σ.freeVars, P v

variable {P : TyVar → Prop}

theorem over_mono {t : Ty} : (mono t).Over P ↔ t.Over P := by
  simp [Over, Ty.Over]

theorem Over.subst {σ : Scheme} {s : Subst} (h : ∀ v ∈ σ.freeVars, (s.app v).Over P) :
    (σ.subst s).Over P := by
  intro v hv
  obtain ⟨-, u, hu, hvu⟩ := mem_freeVars_subst.1 hv
  exact h u hu v hvu

end Scheme

namespace Env

theorem mem_freeVars {Γ : Env} {v : TyVar} :
    v ∈ Γ.freeVars ↔ ∃ x σ, Γ.get? x = some σ ∧ v ∈ σ.freeVars := by
  have hfold : ∀ l : List Scheme, v ∈ l.foldr (fun σ vs => σ.freeVars ∪ vs) .empty ↔
      ∃ σ ∈ l, v ∈ σ.freeVars := by
    intro l
    induction l with
    | nil => simp
    | cons σ l ih => simp [ih]
  rw [freeVars, hfold]
  simp only [OrderedMap.mem_values_iff]
  constructor
  · rintro ⟨σ, ⟨x, hx⟩, hv⟩
    exact ⟨x, σ, hx, hv⟩
  · rintro ⟨x, σ, hx, hv⟩
    exact ⟨σ, ⟨x, hx⟩, hv⟩

theorem get?_extend (Γ : Env) (x y : String) (σ : Scheme) :
    (Γ.extend x σ).get? y = if y = x then some σ else Γ.get? y := OrderedMap.get?_insertLast ..

theorem get?_subst (Γ : Env) (s : Subst) (x : String) :
    (Γ.subst s).get? x = (Γ.get? x).map (Scheme.subst s) := OrderedMap.get?_map ..

theorem subst_extend (Γ : Env) (x : String) (σ : Scheme) (s : Subst) :
    (Γ.extend x σ).subst s = (Γ.subst s).extend x (σ.subst s) := OrderedMap.map_insertLast ..

theorem mem_freeVars_extend {Γ : Env} {x : String} {σ : Scheme} {v : TyVar}
    (h : v ∈ (Γ.extend x σ).freeVars) : v ∈ Γ.freeVars ∨ v ∈ σ.freeVars := by
  obtain ⟨y, τ, hy, hv⟩ := mem_freeVars.1 h
  rw [get?_extend] at hy
  split at hy
  · cases hy; exact .inr hv
  · exact .inl (mem_freeVars.2 ⟨y, τ, hy, hv⟩)

/-- All variables that are free in the environment satisfy `P`. -/
def Over (P : TyVar → Prop) (Γ : Env) : Prop := ∀ v ∈ Γ.freeVars, P v

variable {P : TyVar → Prop} {Γ : Env}

theorem over_iff : Γ.Over P ↔ ∀ x σ, Γ.get? x = some σ → σ.Over P := by
  constructor
  · exact fun h x σ hx v hv => h v (mem_freeVars.2 ⟨x, σ, hx, hv⟩)
  · intro h v hv
    obtain ⟨x, σ, hx, hv⟩ := mem_freeVars.1 hv
    exact h x σ hx v hv

theorem Over.extend (h : Γ.Over P) (x : String) {σ : Scheme} (hσ : σ.Over P) :
    (Γ.extend x σ).Over P := by
  rw [over_iff] at h ⊢
  intro y τ hy
  rw [get?_extend] at hy
  split at hy
  · cases hy; exact hσ
  · exact h y τ hy

/-- What is free in a substituted environment comes from the types of its free variables. -/
theorem over_subst {s : Subst} (h : ∀ v ∈ Γ.freeVars, (s.app v).Over P) : (Γ.subst s).Over P := by
  rw [over_iff]
  intro x τ hx
  rw [get?_subst] at hx
  obtain ⟨σ, hσ, rfl⟩ := Option.map_eq_some_iff.1 hx
  exact Scheme.Over.subst fun v hv => h v (mem_freeVars.2 ⟨x, σ, hσ, hv⟩)

theorem Over.subst (h : Γ.Over P) {s : Subst} (hs : s.Over P) : (Γ.subst s).Over P :=
  over_subst fun v hv => Ty.Over.subst (Ty.over_var.2 (h v hv)) hs

/-- After a solved substitution, none of its variables is free. -/
theorem over_not_mem_keys {s : Subst} (hs : s.Solved) : (Γ.subst s).Over (· ∉ s.keys) :=
  over_subst fun v _ _ hu => hs.not_mem_keys (t := .var v) hu

/-- No scheme of the environment has a free variable. -/
def Closed (Γ : Env) : Prop := ∀ σ ∈ Γ.values, σ.freeVars = .empty

instance (Γ : Env) : Decidable Γ.Closed :=
  inferInstanceAs (Decidable (∀ σ ∈ Γ.values, σ.freeVars = .empty))

theorem Closed.over (h : Γ.Closed) : Γ.Over P := by
  refine over_iff.2 fun x σ hx v hv => ?_
  rw [h σ (OrderedMap.mem_values_iff.2 ⟨x, hx⟩)] at hv
  exact absurd hv (OrdSet.not_mem_empty v)

theorem Closed.freeVars_get? (h : Γ.Closed) {x : String} {σ : Scheme} (hx : Γ.get? x = some σ) :
    σ.freeVars = .empty := h σ (OrderedMap.mem_values_iff.2 ⟨x, hx⟩)

theorem Closed.extend (h : Γ.Closed) (x : String) {σ : Scheme} (hσ : σ.freeVars = .empty) :
    (Γ.extend x σ).Closed := by
  intro τ hτ
  obtain ⟨y, hy⟩ := OrderedMap.mem_values_iff.1 hτ
  rw [get?_extend] at hy
  split at hy
  · cases hy; exact hσ
  · exact h.freeVars_get? hy

theorem Closed.subst_eq (h : Γ.Closed) (s : Subst) : Γ.subst s = Γ := by
  refine OrderedMap.ext ((List.map_congr_left fun e he => ?_).trans (List.map_id Γ.entries))
  exact Prod.ext rfl (Scheme.subst_of_closed (h e.2 (List.mem_map_of_mem he)) s)

@[simp] theorem generalize_body (Γ : Env) (t : Ty) : (Γ.generalize t).body = t := rfl

theorem mem_generalize_vars {t : Ty} {v : TyVar} :
    v ∈ (Γ.generalize t).vars ↔ v ∈ t.freeVars ∧ v ∉ Γ.freeVars := by
  rw [generalize, OrdSet.mem_toList, OrdSet.mem_diff]

theorem mem_freeVars_generalize {t : Ty} {v : TyVar} :
    v ∈ (Γ.generalize t).freeVars ↔ v ∈ t.freeVars ∧ v ∈ Γ.freeVars := by
  rw [Scheme.mem_freeVars, mem_generalize_vars, generalize_body]
  constructor
  · rintro ⟨ht, h⟩
    exact ⟨ht, Decidable.byContradiction fun hΓ => h ⟨ht, hΓ⟩⟩
  · rintro ⟨ht, hΓ⟩
    exact ⟨ht, fun h => h.2 hΓ⟩

theorem Closed.freeVars_generalize (h : Γ.Closed) (t : Ty) :
    (Γ.generalize t).freeVars = .empty := by
  refine OrdSet.ext fun v => ?_
  rw [mem_freeVars_generalize]
  constructor
  · exact fun hv => (h.over (P := fun _ => False) v hv.2).elim
  · exact fun hv => absurd hv (OrdSet.not_mem_empty v)

theorem over_generalize {t : Ty} (ht : t.Over P) : (Γ.generalize t).Over P :=
  fun v hv => ht v (mem_freeVars_generalize.1 hv).1

end Env

/-! ## Kinds of schemes and environments -/

/-- The bodies of all schemes are well-kinded types. -/
def Env.Kinded (Γ : Env) : Prop := ∀ x σ, Γ.get? x = some σ → σ.body.HasKind .free

theorem Env.kinded_iff {Γ : Env} : Γ.Kinded ↔ ∀ σ ∈ Γ.values, σ.body.HasKind .free := by
  constructor
  · intro h σ hσ
    obtain ⟨x, hx⟩ := OrderedMap.mem_values_iff.1 hσ
    exact h x σ hx
  · exact fun h x σ hx => h σ (OrderedMap.mem_values_iff.2 ⟨x, hx⟩)

namespace Env.Kinded

variable {Γ : Env}

theorem extend (h : Γ.Kinded) (x : String) {σ : Scheme} (hσ : σ.body.HasKind .free) :
    (Γ.extend x σ).Kinded := by
  intro y τ hy
  rw [Env.extend, OrderedMap.get?_insertLast] at hy
  split at hy
  · cases hy; exact hσ
  · exact h y τ hy

theorem subst (h : Γ.Kinded) {s : Subst} (hs : s.Respects) : (Γ.subst s).Kinded := by
  intro y τ hy
  rw [Env.subst, OrderedMap.get?_map] at hy
  obtain ⟨σ, hσ, rfl⟩ := Option.map_eq_some_iff.1 hy
  exact (h y σ hσ).subst (hs.filterKeys _)

end Env.Kinded

end RowTyping
