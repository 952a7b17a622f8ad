import RowTyping.Proofs.Typing

/-!
# The readings of a scheme

To compare schemes whose free variables have different names, and up to the order of fields, look at
what their instances read as: `σ.Reading φ τ` holds when `τ` is the reading of an instance of `σ`
and the free variables of `σ` have the values of `φ`. When the free variables stand for themselves,
the readings are the instances with their rows sorted (`Scheme.reading_self_iff`). Substituting into
a scheme changes the values of its free variables (`Scheme.reading_subst`), provided that no
variable is captured.

Two lemmas are about generalization. Whatever values the variables of the environment take, the
bound variables can be renamed out of the way such that no reading is lost
(`exists_generalization`). And the generalization of a type has all the readings that the
generalization of a reading has (`Scheme.Reading.of_generalization`).
-/

namespace RowTyping

namespace Valuation

/-- The values of `φ`, read by `ψ`. -/
def read (φ ψ : Valuation) : Valuation where
  val v := (φ v).eval ψ
  hasKind v := (φ.hasKind v).eval ψ.hasKind
  sorted _ := Ty.norm_eval ψ.sorted _

@[simp] theorem read_apply (φ ψ : Valuation) (v : TyVar) : φ.read ψ v = (φ v).eval ψ := rfl

theorem eval_read (φ ψ : Valuation) (t : Ty) : t.eval (φ.read ψ) = (t.eval φ).eval ψ :=
  (Ty.eval_eval φ ψ t).symm

theorem norm_eval (φ : Valuation) (t : Ty) : (t.eval φ).norm = t.eval φ := Ty.norm_eval φ.sorted t

/-- A value is not changed by a reading that leaves its variables alone. -/
theorem eval_val (φ : Valuation) {ψ : Valuation} {v : TyVar}
    (h : ∀ u ∈ (φ v).freeVars, ψ u = .var u) : (φ v).eval ψ = φ v :=
  (Ty.eval_congr h).trans (φ.sorted v)

end Valuation

/-! ## Readings -/

namespace Scheme

/-- The type is the reading of an instance of the scheme, whose free variables have the values of
`φ`. -/
def Reading (σ : Scheme) (φ : Valuation) (τ : Ty) : Prop :=
  ∃ χ : Valuation, (∀ v ∈ σ.freeVars, χ v = φ v) ∧ σ.body.eval χ = τ

variable {σ : Scheme} {φ ψ : Valuation} {τ : Ty}

theorem Reading.congr (h : σ.Reading φ τ) (he : ∀ v ∈ σ.freeVars, φ v = ψ v) : σ.Reading ψ τ := by
  obtain ⟨χ, hχ, hτ⟩ := h
  exact ⟨χ, fun v hv => (hχ v hv).trans (he v hv), hτ⟩

@[simp] theorem reading_mono {t : Ty} : (mono t).Reading φ τ ↔ t.eval φ = τ := by
  constructor
  · rintro ⟨χ, hχ, rfl⟩
    exact Ty.eval_congr fun v hv => (hχ v (mem_freeVars_mono.2 hv)).symm
  · exact fun h => ⟨φ, fun _ _ => rfl, h⟩

theorem reading_self_iff : σ.Reading .self τ ↔ ∃ t, σ.HasInstance t ∧ t.norm = τ := by
  constructor
  · rintro ⟨χ, hχ, rfl⟩
    refine ⟨_, ⟨.tabulate σ.vars χ, .tabulate fun v _ => χ.hasKind v, fun v hv => ?_, rfl⟩, ?_⟩
    · obtain ⟨t, ht⟩ := OrderedMap.mem_keys_iff.1 hv
      rw [Subst.get?_tabulate] at ht
      split at ht
      · assumption
      · cases ht
    · rw [Ty.norm_subst]
      refine Ty.eval_congr fun v hv => ?_
      rw [Subst.app_tabulate]
      split
      · exact χ.sorted v
      · next hvs => exact (hχ v (mem_freeVars.2 ⟨hv, hvs⟩)).symm
  · rintro ⟨_, ⟨ρ, hρ, hk, rfl⟩, rfl⟩
    refine ⟨Valuation.self.after ρ hρ, fun v hv => ?_, Valuation.eval_after _ hρ _⟩
    rw [Valuation.after_apply, Subst.app_of_not_mem fun h => (mem_freeVars.1 hv).2 (hk v h),
      Ty.eval]

/-- The readings of a substituted scheme, when no variable is captured. -/
theorem reading_subst {s : Subst} (hs : s.Respects)
    (hc : ∀ v ∈ σ.freeVars, ∀ u ∈ (s.app v).freeVars, u ∉ σ.vars) :
    (σ.subst s).Reading φ τ ↔ σ.Reading (φ.after s hs) τ := by
  constructor
  · rintro ⟨χ, hχ, rfl⟩
    refine ⟨χ.after _ (hs.filterKeys _), fun v hv => ?_, Valuation.eval_after _ _ _⟩
    rw [Valuation.after_apply, Valuation.after_apply, app_filterKeys,
      if_neg (mem_freeVars.1 hv).2]
    exact Ty.eval_congr fun u hu => hχ u (mem_freeVars_subst.2 ⟨hc v hv u hu, v, hv, hu⟩)
  · rintro ⟨χ, hχ, rfl⟩
    refine ⟨.glue (· ∈ σ.vars) χ φ, fun v hv => ?_, ?_⟩
    · exact Valuation.glue_neg (mem_freeVars.1 hv).2 χ φ
    · refine (Ty.eval_subst _ _ _).trans (Ty.eval_congr fun v hv => ?_)
      rw [app_filterKeys]
      split
      · next hvs => exact Valuation.glue_pos hvs χ φ
      · next hvs =>
        have hv := mem_freeVars.2 ⟨hv, hvs⟩
        rw [hχ v hv]
        exact Ty.eval_congr fun u hu => Valuation.glue_neg (hc v hv u hu) χ φ

end Scheme

/-! ## Renaming -/

/-- There are always other names: variables can be renamed away from finitely many. -/
theorem TyVar.exists_renaming (avoid : List TyVar) : ∃ f : TyVar → TyVar,
    (∀ u v, f u = f v → u = v) ∧ (∀ v, (f v).constraint = v.constraint) ∧ ∀ v, f v ∉ avoid := by
  obtain ⟨k, hk⟩ : ∃ k, ∀ u ∈ avoid, u.name.length < k := by
    induction avoid with
    | nil => exact ⟨0, fun u hu => by cases hu⟩
    | cons w avoid ih =>
      obtain ⟨k, hk⟩ := ih
      refine ⟨k + w.name.length + 1, fun u hu => ?_⟩
      rcases List.mem_cons.1 hu with rfl | hu
      · omega
      · have := hk u hu; omega
  refine ⟨fun v => ⟨v.name ++ String.ofList (.replicate k '_'), v.constraint⟩, ?_, fun _ => rfl, ?_⟩
  · rintro ⟨x, c⟩ ⟨y, d⟩ h
    injection h with hname hc
    have hl := congrArg String.toList hname
    rw [String.toList_append, String.toList_append] at hl
    obtain rfl : x = y := String.toList_injective (List.append_cancel_right hl)
    obtain rfl : c = d := hc
    rfl
  · intro v hv
    have := hk _ hv
    simp only [String.length_append, String.length_ofList, List.length_replicate] at this
    omega

namespace Valuation

/-- The values of renamed variables: new variables. -/
def rename (f : TyVar → TyVar) (hf : ∀ v, (f v).constraint = v.constraint) : Valuation where
  val v := .var (f v)
  hasKind v := hf v ▸ Ty.hasKind_var_self (f v)
  sorted _ := rfl

open Classical in
/-- New variables may take the values of the old ones, while all others stand for themselves. -/
theorem exists_renamed {f : TyVar → TyVar} (hf : ∀ u v, f u = f v → u = v)
    (hc : ∀ v, (f v).constraint = v.constraint) (χ : Valuation) :
    ∃ χ' : Valuation, (∀ v, χ' (f v) = χ v) ∧ ∀ u, (∀ v, f v ≠ u) → χ' u = .var u := by
  refine ⟨⟨fun u => if h : ∃ v, f v = u then χ h.choose else .var u, fun u => ?_, fun u => ?_⟩,
    fun v => ?_, fun u hu => ?_⟩
  · split
    · next h =>
      rw [← congrArg TyVar.constraint h.choose_spec, hc]
      exact χ.hasKind _
    · exact Ty.hasKind_var_self u
  · split
    · exact χ.sorted _
    · rfl
  · have h : ∃ v', f v' = f v := ⟨v, rfl⟩
    exact (dif_pos h).trans (congrArg χ (hf _ _ h.choose_spec))
  · exact dif_neg fun ⟨v, hv⟩ => hu v hv

end Valuation

/-! ## Generalization -/

/-- The values of the free variables of an environment can be completed such that no reading of a
generalization is lost in another environment. The bound variables are renamed out of the way of
its free variables. -/
theorem exists_generalization (Γ Γ' : Env) (t : Ty) (φ : Valuation) :
    ∃ ψ : Valuation, (∀ v ∈ Γ.freeVars, ψ v = φ v) ∧
      ∀ τ, (Γ.generalize t).Reading φ τ → (Γ'.generalize (t.eval ψ)).Reading .self τ := by
  obtain ⟨f, hinj, hf, havoid⟩ :=
    TyVar.exists_renaming (Γ'.freeVars.toList ++ (t.eval φ).freeVars.toList)
  simp only [List.mem_append, not_or, OrdSet.mem_toList] at havoid
  refine ⟨.glue (· ∈ Γ.freeVars) φ (.rename f hf), fun v hv => Valuation.glue_pos hv .., ?_⟩
  rintro τ ⟨χ, hχ, rfl⟩
  -- The instance of the old variables, seen as one of the new variables.
  obtain ⟨χ', hnew, hold⟩ := Valuation.exists_renamed hinj hf χ
  refine ⟨χ', fun u hu => ?_, ?_⟩
  · have hu := (Env.mem_freeVars_generalize.1 hu).2
    exact hold u fun v hv => (havoid v).1 (hv ▸ hu)
  · rw [Env.generalize_body, ← Valuation.eval_read]
    refine Ty.eval_congr fun v hv => ?_
    rw [Valuation.read_apply]
    by_cases hΓ : v ∈ Γ.freeVars
    · rw [hχ v (Env.mem_freeVars_generalize.2 ⟨hv, hΓ⟩), Valuation.glue_pos hΓ]
      refine φ.eval_val fun u hu => hold u fun w hw => (havoid w).2 ?_
      exact hw ▸ Ty.mem_freeVars_eval.2 ⟨v, hv, hu⟩
    · rw [Valuation.glue_neg hΓ]
      exact hnew v

/-- A generalization has all the readings that the generalization of one of its readings has. -/
theorem Scheme.Reading.of_generalization {Γ Γ' : Env} {t t' : Ty} {us : List TyVar} {φ : Valuation}
    {τ : Ty} (h : (Scheme.mk us t').Reading .self τ) (ht : t.eval φ = t'.norm)
    (hus : ∀ u ∈ us, u ∉ Γ'.freeVars)
    (hφ : ∀ v ∈ t.freeVars, v ∈ Γ.freeVars → (φ v).Over (· ∈ Γ'.freeVars)) :
    (Γ.generalize t).Reading φ τ := by
  obtain ⟨χ, hχ, rfl⟩ := h
  refine ⟨φ.read χ, fun v hv => ?_, ?_⟩
  · obtain ⟨hv, hΓ⟩ := Env.mem_freeVars_generalize.1 hv
    refine φ.eval_val fun u hu => hχ u (Scheme.mem_freeVars.2 ⟨?_, fun hm => ?_⟩)
    · rw [← Ty.mem_freeVars_norm, ← ht]
      exact Ty.mem_freeVars_eval.2 ⟨v, hv, hu⟩
    · exact hus u hm (hφ v hv hΓ u hu)
  · rw [Env.generalize_body, Valuation.eval_read, ht, Ty.eval_norm]

end RowTyping
