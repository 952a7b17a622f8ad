import RowTyping.Proofs.Unify.Depth
import RowTyping.Proofs.Unify.Supply

/-!
# Unification solves equations

A run that issues only new variables returns a solution: the two types become equal up to the
order of fields (`Unified.sound`), well kinded or not.

If the two types have one kind (`WellPosed`), the solution is most general. Whatever values of the
variables solve the equation, they extend to the issued variables so as to absorb the substitution
(`Unified.general`); and if unification is refused, no values solve the equation
(`Refused.unsolvable`).
-/

namespace RowTyping

/-! ## Solutions -/

theorem Ty.norm_subst_congr {a b : Ty} (h : a.norm = b.norm) (s : Subst) :
    (a.subst s).norm = (b.subst s).norm := by
  rw [norm_subst, norm_subst, ← eval_norm, h, eval_norm]

theorem Binds.sound {cfg : Config} {n : Nat} {u : TyVar} {t : Ty} {vs : List TyVar} {s : Subst}
    (h : Binds cfg n u t vs s) : s.app u = t.subst s := by
  cases h with
  | type hu => rw [Ty.subst_singleton_eq_self hu, Subst.app_singleton, if_pos rfl]
  | closed hu => rw [Ty.subst_singleton_eq_self hu, Subst.app_singleton, if_pos rfl]
  | @opened ls fields w hu _ hd _ =>
    have hwu : w ≠ u := fun he => hu (he ▸ Ty.mem_freeVars_of_decompose hd)
    rw [← Ty.subst_var, Ty.subst_compose, Ty.subst_compose, Ty.subst_singleton_eq_self hu,
      Ty.subst_var, Subst.app_singleton, if_pos rfl]
    all_goals
      intro v hv hk
      rw [OrderedMap.mem_keys_singleton] at hv hk
      exact hwu (hv ▸ hk)

/-- A unifier makes the two types equal up to the order of fields. -/
theorem Unified.sound {cfg : Config} (hcfg : cfg.SingleStems) {n : Nat} {t₁ t₂ : Ty}
    {vs : List TyVar} {s : Subst} (h : Unified cfg n t₁ t₂ vs s) (h₁ : t₁.Over (cfg.Stale n))
    (h₂ : t₂.Over (cfg.Stale n)) : (t₁.subst s).norm = (t₂.subst s).norm := by
  induction h with
  | sameVar => rfl
  | typeVars hne =>
    rw [Ty.subst_var, Ty.subst_var, Subst.app_singleton, Subst.app_singleton, if_pos rfl, ite_self]
  | @rowVars n u v =>
    rw [Ty.subst_var, Ty.subst_var, Subst.app, Subst.app, OrderedMap.get?_insert,
      OrderedMap.get?_insert, if_pos rfl, OrderedMap.get?_singleton, if_pos rfl, ite_self]
    rfl
  | bindLeft _ hb => rw [Ty.subst_var, hb.sound]
  | bindRight _ hb => rw [Ty.subst_var, hb.sound]
  | int => rfl
  | bool => rfl
  | rowEmpty => rfl
  | @fn n a₁ a₂ r₁ r₂ vs₁ vs₂ s₁ s₂ hu₁ hu₂ ih₁ ih₂ =>
    obtain ⟨ha₁, ha₂⟩ := Leads.fnArg.stale hcfg h₁ h₂
    obtain ⟨hr₁, hr₂⟩ := (Leads.fnRet hu₁).stale hcfg h₁ h₂
    have hs₁ := hu₁.settled hcfg ha₁ ha₂
    have harg := Ty.norm_subst_congr (ih₁ ha₁ ha₂) s₂
    have hret := ih₂ hr₁ hr₂
    simp only [← hs₁.subst_compose hu₂] at harg hret
    show Ty.fn (a₁.subst _).norm (r₁.subst _).norm = Ty.fn (a₂.subst _).norm (r₂.subst _).norm
    rw [harg, hret]
  | record _ ih => exact congrArg Ty.record (ih h₁ h₂)
  | @rowFound n label field tail row f t pre vs₁ vs₂ s₁ s₂ _ _ hrow hl hu₁ hu₂ ih₁ ih₂ =>
    subst hrow
    obtain ⟨hf₁, hf₂⟩ := (Leads.foundField hl).stale hcfg h₁ h₂
    obtain ⟨hr₁, hr₂⟩ := (Leads.foundTail hl hu₁).stale hcfg h₁ h₂
    have hs₁ := hu₁.settled hcfg hf₁ hf₂
    have hfield := Ty.norm_subst_congr (ih₁ hf₁ hf₂) s₂
    have htail := ih₂ hr₁ hr₂
    simp only [← hs₁.subst_compose hu₂] at hfield htail
    rw [Ty.norm_subst _ (.extendRow ..), Ty.eval_extendRow_rowExtend pre _ hl, ← Ty.norm_subst,
      ← Ty.norm_subst, ← hfield, ← htail]
    rfl
  | @rowOpened n label field tail row pre w vs₁ vs₂ s₁ s₂ _ _ hrow _ hl hw _ hu₁ hu₂ ih₁ ih₂ =>
    subst hrow
    obtain ⟨hf₁, hf₂⟩ := (Leads.openedField hl hw).stale hcfg h₁ h₂
    obtain ⟨hr₁, hr₂⟩ := (Leads.openedTail hl hw hu₁).stale hcfg h₁ h₂
    have hs₀ := cfg.opening_settled hcfg (Ty.over_var.1 (Ty.over_extendRow.1 h₂).2) label
    have hs := hs₀.andThen hu₁ (hu₁.settled hcfg hf₁ hf₂) (Nat.le_add_right ..)
    have hfield := Ty.norm_subst_congr (ih₁ hf₁ hf₂) s₂
    have htail := ih₂ hr₁ hr₂
    simp only [← hs.subst_compose hu₂, ← hs₀.subst_compose hu₁] at hfield htail
    -- The end of the row becomes what it was opened to.
    have hend : (Ty.var w).subst (s₂.compose (s₁.compose (cfg.opening n w label))) =
        (Ty.rowExtend label (.var (cfg.typeVar (n + 1)))
          (.var (cfg.rowVar n (w.labels ∪ .singleton label)))).subst
            (s₂.compose (s₁.compose (cfg.opening n w label))) := by
      have hw₀ : (Ty.var w).subst (cfg.opening n w label) =
          .rowExtend label (.var (cfg.typeVar (n + 1)))
            (.var (cfg.rowVar n (w.labels ∪ .singleton label))) :=
        (Subst.app_singleton ..).trans (if_pos rfl)
      simp only [hs.subst_compose hu₂, hs₀.subst_compose hu₁]
      rw [← hw₀, hs₀.solved.subst_subst]
    rw [Ty.subst_extendRow, hend, ← Ty.subst_extendRow, Ty.norm_subst _ (.extendRow ..),
      Ty.eval_extendRow_rowExtend pre _ hl, ← Ty.norm_subst, ← Ty.norm_subst, ← hfield, ← htail]
    rfl

/-- With stems of one character, a run that can issue none of the variables of the two types
returns a substitution that makes the types equal up to the order of fields. The types need not be
well formed. -/
theorem unify_unifies (cfg : Config) (hcfg : cfg.SingleStems) (st st' : RunState) (t₁ t₂ : Ty)
    (h₁ : t₁.Over (cfg.Stale st.issued)) (h₂ : t₂.Over (cfg.Stale st.issued)) (s : Subst)
    (h : unify t₁ t₂ cfg st = .ok s st') : RowEquiv (t₁.subst s) (t₂.subst s) := by
  have hu := ((unifyWithin_yields cfg (unifyDepth t₁ t₂) st.issued t₁ t₂).of_ok rfl h).1
  exact rowEquiv_iff.2 (hu.sound hcfg h₁ h₂)

/-- A variable that may stand for anything, and so should not end a row. -/
def anyVar : TyVar := ⟨"a0", .free⟩

/-- The row `x : int` with an end that lacks `x`. -/
def openX : Ty := .rowExtend "x" .int (.var ⟨"r1", .lacks (.singleton "x")⟩)

/-- A row whose end occurs in its field as well. -/
def selfEnded : Ty := .rowExtend "y" (.record (.var anyVar)) (.var anyVar)

theorem unify_unifies_selfEnded :
    Config.SingleStems {} ∧ openX.Over (Config.Stale {} 2) ∧ selfEnded.Over (Config.Stale {} 2) ∧
      ∃ s st', unify openX selfEnded {} { issued := 2 } = .ok s st' ∧
        openX.subst s ≠ selfEnded.subst s ∧ RowEquiv (openX.subst s) (selfEnded.subst s) := by
  have hcfg : Config.SingleStems {} := ⟨rfl, rfl⟩
  have hvs : NamedFrom (Config.OwnStem {}) 0 [anyVar, ⟨"r1", .lacks (.singleton "x")⟩] :=
    ⟨⟨_, 0, .inl rfl, rfl, rfl⟩, ⟨_, 1, .inr rfl, rfl, rfl⟩, trivial⟩
  have h₁ : openX.Over (Config.Stale {} 2) := fun v hv =>
    Config.stale_of_issued hcfg hvs (by
      have hv : v = ⟨"r1", .lacks (.singleton "x")⟩ := by simpa [openX] using hv
      simp [hv])
  have h₂ : selfEnded.Over (Config.Stale {} 2) := fun v hv =>
    Config.stale_of_issued hcfg hvs (by
      have hv : v = anyVar := by simpa [selfEnded] using hv
      simp [hv])
  exact ⟨hcfg, h₁, h₂, _, _, rfl, by decide +kernel,
    unify_unifies {} hcfg { issued := 2 } _ _ _ h₁ h₂ _ rfl⟩

/-! ## Most general solutions -/

/-- If a chain of fields excludes some labels, then so does its end. -/
theorem Ty.hasKind_end_of_eval {φ : TyVar → Ty} {pre : List (String × Ty)} {t : Ty} {ls : Labels}
    (h : ((extendRow pre t).eval φ).HasKind (.lacks ls)) : (t.eval φ).HasKind (.lacks ls) := by
  induction pre generalizing ls with
  | nil => exact h
  | cons e pre ih =>
    have ht := ih (hasKind_placeField.1 h).2.2
    exact ht.weaken fun l hl => OrdSet.mem_insert.2 (.inr hl)

theorem Ty.eval_found {φ : TyVar → Ty} {label : String} {field tail f t : Ty}
    {pre : List (String × Ty)} (hl : label ∉ pre.map Prod.fst)
    (he : (rowExtend label field tail).eval φ = (extendRow pre (rowExtend label f t)).eval φ) :
    field.eval φ = f.eval φ ∧ tail.eval φ = (extendRow pre t).eval φ := by
  rw [eval_extendRow_rowExtend pre φ hl] at he
  exact placeField_cancel he

/-- The two types have one kind, and the run can issue none of their variables. -/
structure WellPosed (cfg : Config) (n : Nat) (t₁ t₂ : Ty) : Prop where
  stems : cfg.SingleStems
  sameKind : ∃ k, t₁.HasKind k ∧ t₂.HasKind k
  left : t₁.Over (cfg.Stale n)
  right : t₂.Over (cfg.Stale n)

section General

variable {cfg : Config} {n : Nat}

theorem WellPosed.next {m : Nat} {t₁ t₂ u₁ u₂ : Ty} (h : WellPosed cfg n t₁ t₂)
    (hl : Leads cfg n t₁ t₂ m u₁ u₂) : WellPosed cfg m u₁ u₂ := by
  obtain ⟨k, h₁, h₂⟩ := h.sameKind
  obtain ⟨hleft, hright⟩ := hl.stale h.stems h.left h.right
  exact ⟨h.stems, hl.sameKind h₁ h₂, hleft, hright⟩

theorem WellPosed.settled {t₁ t₂ : Ty} {vs : List TyVar} {s : Subst} (h : WellPosed cfg n t₁ t₂)
    (hu : Unified cfg n t₁ t₂ vs s) : Settled cfg (n + vs.length) s :=
  hu.settled h.stems h.left h.right

/-- Types that no issued variable occurs in stay equal after a unifier was applied. -/
theorem Valuation.Extends.eval_stale {φ ψ : Valuation} {vs : List TyVar} {s : Subst}
    (h : φ.Extends vs s ψ) (hvs : NamedFrom cfg.OwnStem n vs) {a b : Ty}
    (ha : a.Over (cfg.Stale n)) (hb : b.Over (cfg.Stale n)) (he : a.eval φ = b.eval φ) :
    (a.subst s).eval ψ = (b.subst s).eval ψ := by
  rw [h.eval_subst fun v hv => (ha v hv).not_issued hvs,
    h.eval_subst fun v hv => (hb v hv).not_issued hvs, he]

/-- Two rows of which one has a label and the other does not agree only if the end of the other
holds the label. What stands there are values for the variables that open it. -/
theorem Valuation.exists_opening {φ : Valuation} {label : String} {field tail : Ty}
    {pre : List (String × Ty)} {w : TyVar}
    (hp : WellPosed cfg n (.rowExtend label field tail) (.extendRow pre (.var w)))
    (hl : label ∉ pre.map Prod.fst)
    (he : (Ty.rowExtend label field tail).eval φ = (Ty.extendRow pre (.var w)).eval φ) :
    ∃ ψ, φ.Extends [cfg.rowVar n (w.labels ∪ .singleton label), cfg.typeVar (n + 1)]
        (cfg.opening n w label) ψ ∧
      field.eval ψ = ψ (cfg.typeVar (n + 1)) ∧
      tail.eval ψ =
        (Ty.extendRow pre (.var (cfg.rowVar n (w.labels ∪ .singleton label)))).eval ψ := by
  obtain ⟨-, ⟨k, k₁, k₂⟩, h₁, h₂⟩ := hp
  obtain ⟨ls, rfl⟩ := k₁.eq_lacks
  have hlabel : label ∈ (φ w).rowLabels := by
    have hm : label ∈ ((Ty.rowExtend label field tail).eval φ).rowLabels :=
      Ty.mem_rowLabels_placeField.2 (.inl rfl)
    rw [he] at hm
    exact ((Ty.mem_rowLabels_eval_extendRow pre).1 hm).resolve_left hl
  obtain ⟨g, ρ, hw⟩ := Ty.exists_norm_eq_placeField hlabel
  rw [φ.sorted w] at hw
  obtain ⟨-, hg, hρ⟩ : (Ty.rowExtend label g.norm ρ.norm).HasKind (.lacks w.labels) := by
    rw [← Ty.hasKind_placeField, ← hw, ← k₂.rowEnd_constraint]
    exact φ.hasKind w
  have hβ : ρ.norm.HasKind (cfg.rowVar n (w.labels ∪ .singleton label)).constraint :=
    hρ.weaken fun l hl => by simpa [or_comm] using OrdSet.mem_union.1 hl
  -- The value of the end is taken apart: its field is the new type, the rest is the new end.
  let ψ := (φ.set _ ρ.norm hβ (Ty.norm_norm ρ)).set (cfg.typeVar (n + 1)) g.norm hg (Ty.norm_norm g)
  have hψγ : ψ (cfg.typeVar (n + 1)) = g.norm := set_self ..
  have hψβ : ψ (cfg.rowVar n (w.labels ∪ .singleton label)) = ρ.norm :=
    (set_of_ne _ _ _ fun h => by cases congrArg TyVar.constraint h).trans (set_self ..)
  have hvs : NamedFrom cfg.OwnStem n
      [cfg.rowVar n (w.labels ∪ .singleton label), cfg.typeVar (n + 1)] :=
    ⟨cfg.rowVar_numbered n _, cfg.typeVar_numbered _, trivial⟩
  have hagree : ∀ v, v ∉ [cfg.rowVar n (w.labels ∪ .singleton label), cfg.typeVar (n + 1)] →
      ψ v = φ v := by
    intro v hv
    rw [List.mem_cons, List.mem_singleton, not_or] at hv
    exact (set_of_ne _ _ _ hv.2).trans (set_of_ne _ _ _ hv.1)
  have hopen : φ.Extends [cfg.rowVar n (w.labels ∪ .singleton label), cfg.typeVar (n + 1)]
      (cfg.opening n w label) ψ := by
    refine ⟨hagree, absorbs_of_entries fun v t hv => ?_⟩
    obtain ⟨rfl, rfl⟩ := OrderedMap.get?_singleton_eq_some hv
    have hv : ψ v = φ v :=
      hagree v ((Ty.over_var.1 (Ty.over_extendRow.1 h₂).2).not_issued hvs)
    rw [hv, hw, Ty.eval, Ty.eval, Ty.eval, hψγ, hψβ]
  have he' : (Ty.rowExtend label field tail).eval ψ =
      (Ty.extendRow pre (.rowExtend label (.var (cfg.typeVar (n + 1)))
        (.var (cfg.rowVar n (w.labels ∪ .singleton label))))).eval ψ := by
    rw [hopen.eval_eq fun v hv => (h₁ v hv).not_issued hvs, he,
      ← hopen.eval_eq fun v hv => (h₂ v hv).not_issued hvs]
    refine Ty.eval_extendRow_congr pre ?_
    rw [Ty.eval, ← hopen.absorbs w, Config.opening, Subst.app_singleton, if_pos rfl]
  exact ⟨ψ, hopen, Ty.eval_found hl he'⟩

section Opened

variable {φ : Valuation} {label : String} {field tail : Ty} {pre : List (String × Ty)} {w : TyVar}
  (hp : WellPosed cfg n (.rowExtend label field tail) (.extendRow pre (.var w)))
  (hl : label ∉ pre.map Prod.fst)
  (he : (Ty.rowExtend label field tail).eval φ = (Ty.extendRow pre (.var w)).eval φ)

include hp hl he

/-- Values that solve an equation of rows solve the one between the opened fields. -/
theorem Valuation.exists_openedField : ∃ ψ,
    φ.Extends [cfg.rowVar n (w.labels ∪ .singleton label), cfg.typeVar (n + 1)]
      (cfg.opening n w label) ψ ∧
    (field.subst (cfg.opening n w label)).eval ψ =
      ((Ty.var (cfg.typeVar (n + 1))).subst (cfg.opening n w label)).eval ψ ∧
    tail.eval ψ =
      (Ty.extendRow pre (.var (cfg.rowVar n (w.labels ∪ .singleton label)))).eval ψ := by
  obtain ⟨ψ, hψ, hf, ht⟩ := exists_opening hp hl he
  refine ⟨ψ, hψ, ?_, ht⟩
  rw [hψ.absorbs.eval_subst, hψ.absorbs.eval_subst]
  exact hf

/-- Values that solve an equation of rows solve the one between the opened tails, if the fields
were unified in between. -/
theorem Valuation.exists_openedTail {vs : List TyVar} {s : Subst}
    (hvs : NamedFrom cfg.OwnStem (n + 2) vs)
    (hfield : ∀ {ψ : Valuation}, (field.subst (cfg.opening n w label)).eval ψ =
      ((Ty.var (cfg.typeVar (n + 1))).subst (cfg.opening n w label)).eval ψ →
      ∃ χ, ψ.Extends vs s χ) : ∃ ψ,
    φ.Extends (cfg.rowVar n (w.labels ∪ .singleton label) :: cfg.typeVar (n + 1) :: vs)
      (s.compose (cfg.opening n w label)) ψ ∧
    (tail.subst (s.compose (cfg.opening n w label))).eval ψ =
      ((Ty.extendRow pre (.var (cfg.rowVar n (w.labels ∪ .singleton label)))).subst
        (s.compose (cfg.opening n w label))).eval ψ := by
  obtain ⟨ψ, hψ, hf, ht⟩ := exists_openedField hp hl he
  obtain ⟨χ, hχ⟩ := hfield hf
  obtain ⟨hcfg, -, h₁, h₂⟩ := hp
  rw [Ty.over_extendRow, Ty.over_var] at h₂
  rw [Ty.over_rowExtend] at h₁
  have hs₀ := cfg.opening_settled hcfg h₂.2 label
  have hall := hψ.trans hχ fun v hv => (hs₀.stale v hv).not_issued hvs
  have htail : tail.Over (cfg.Stale (n + 2)) := fun v hv => (h₁.2 v hv).mono (Nat.le_add_right ..)
  have hrest := cfg.opened_stale hcfg h₂.1 w label
  refine ⟨χ, hall, ?_⟩
  rw [hall.absorbs.eval_subst, hall.absorbs.eval_subst,
    hχ.eval_eq fun v hv => (htail v hv).not_issued hvs,
    hχ.eval_eq fun v hv => (hrest v hv).not_issued hvs, ht]

end Opened

/-- A variable that takes the place of another one takes its value. -/
theorem Binds.general {u : TyVar} {t : Ty} {vs : List TyVar} {s : Subst}
    (h : Binds cfg n u t vs s) {k : Constraint} (ku : k.Within u.constraint) (kt : t.HasKind k)
    (hu : cfg.Stale n u) (ht : t.Over (cfg.Stale n)) {φ : Valuation} (he : φ u = t.eval φ) :
    ∃ ψ, φ.Extends vs s ψ := by
  have hbind : ∀ ψ : Valuation, ψ u = t.eval ψ → ψ.Absorbs (.singleton u t) := by
    intro ψ hψ
    refine Valuation.absorbs_of_entries fun v τ hv => ?_
    obtain ⟨rfl, rfl⟩ := OrderedMap.get?_singleton_eq_some hv
    exact hψ.symm
  cases h with
  | type => exact ⟨φ, fun _ _ => rfl, hbind φ he⟩
  | closed => exact ⟨φ, fun _ _ => rfl, hbind φ he⟩
  | @opened ls fields w _ hc hd _ =>
    have ht' : t = .extendRow fields (.var w) := (Ty.decompose_ok hd).1
    have hw : cfg.Stale n w := ht w (Ty.mem_freeVars_of_decompose hd)
    have kw : (φ w).HasKind (.lacks (ls ∪ w.labels)) := by
      refine Ty.HasKind.lacks_union ?_ ?_
      · have hku := φ.hasKind u
        rw [he, hc, ht'] at hku
        exact Ty.hasKind_end_of_eval hku
      · rw [hc] at ku
        cases k with
        | free => exact ku.elim
        | lacks ms =>
          rw [ht'] at kt
          exact kt.rowEnd_constraint ▸ φ.hasKind w
    let ψ := φ.set (cfg.rowVar n (ls ∪ w.labels)) (φ w) kw (φ.sorted w)
    have hψ : ∀ v, cfg.Stale n v → ψ v = φ v := fun v hv =>
      Valuation.set_of_ne _ _ _ (hv.ne_rowVar (Nat.le_refl n))
    refine ⟨ψ, fun v hv => Valuation.set_of_ne _ _ _ (by simpa using hv), .compose ?_ (hbind ψ ?_)⟩
    · refine Valuation.absorbs_of_entries fun v τ hv => ?_
      obtain ⟨rfl, rfl⟩ := OrderedMap.get?_singleton_eq_some hv
      rw [hψ v hw]
      exact Valuation.set_self ..
    · rw [hψ u hu, he]
      exact (Ty.eval_congr fun v hv => hψ v (ht v hv)).symm

/-- Any values that solve an equation between types of one kind extend to values that absorb the
unifier. -/
theorem Unified.general {t₁ t₂ : Ty} {vs : List TyVar} {s : Subst}
    (h : Unified cfg n t₁ t₂ vs s) (hp : WellPosed cfg n t₁ t₂) {φ : Valuation}
    (he : t₁.eval φ = t₂.eval φ) : ∃ ψ, φ.Extends vs s ψ := by
  induction h generalizing φ with
  | typeVars =>
    refine ⟨φ, fun _ _ => rfl, Valuation.absorbs_of_entries fun v t hv => ?_⟩
    obtain ⟨rfl, rfl⟩ := OrderedMap.get?_singleton_eq_some hv
    exact he.symm
  | @rowVars n u v _ hfree =>
    obtain ⟨-, ⟨k, k₁, k₂⟩, h₁, h₂⟩ := hp
    rw [Ty.over_var] at h₁ h₂
    cases k with
    | free =>
      exact absurd ⟨Constraint.eq_free_of_within k₁, Constraint.eq_free_of_within k₂⟩ hfree
    | lacks ls =>
      have hu : (φ u).HasKind (.lacks u.labels) :=
        Constraint.eq_lacks_of_within k₁ ▸ φ.hasKind u
      have hv : (φ u).HasKind (.lacks v.labels) := by
        rw [show φ u = φ v from he]
        exact Constraint.eq_lacks_of_within k₂ ▸ φ.hasKind v
      let ψ := φ.set (cfg.rowVar n (u.labels ∪ v.labels)) (φ u) (hu.lacks_union hv) (φ.sorted u)
      refine ⟨ψ, fun x hx => Valuation.set_of_ne _ _ _ (by simpa using hx),
        Valuation.absorbs_of_entries fun x τ hx => ?_⟩
      have hr : ψ (cfg.rowVar n (u.labels ∪ v.labels)) = φ u := Valuation.set_self ..
      rw [OrderedMap.get?_insert] at hx
      split at hx
      · next hxv =>
        cases hx
        rw [hxv, show ψ v = φ v from Valuation.set_of_ne _ _ _ (h₂.ne_rowVar (Nat.le_refl n))]
        exact hr.trans he
      · obtain ⟨rfl, rfl⟩ := OrderedMap.get?_singleton_eq_some hx
        rw [show ψ x = φ x from Valuation.set_of_ne _ _ _ (h₁.ne_rowVar (Nat.le_refl n))]
        exact hr
  | bindLeft _ hb =>
    obtain ⟨-, ⟨k, k₁, k₂⟩, h₁, h₂⟩ := hp
    exact hb.general k₁ k₂ (Ty.over_var.1 h₁) h₂ he
  | bindRight _ hb =>
    obtain ⟨-, ⟨k, k₁, k₂⟩, h₁, h₂⟩ := hp
    exact hb.general k₂ k₁ (Ty.over_var.1 h₂) h₁ he.symm
  | fn hu₁ hu₂ ih₁ ih₂ =>
    obtain ⟨ha, hr⟩ := Ty.fn.inj he
    have hp₁ := hp.next .fnArg
    obtain ⟨ψ₁, hψ₁⟩ := ih₁ hp₁ ha
    have hr₁ := hψ₁.eval_stale hu₁.namedFrom (Ty.over_fn.1 hp.left).2 (Ty.over_fn.1 hp.right).2 hr
    obtain ⟨ψ₂, hψ₂⟩ := ih₂ (hp.next (.fnRet hu₁)) hr₁
    have hs₁ := (hp₁.settled hu₁).stale
    exact ⟨ψ₂, hψ₁.trans hψ₂ fun v hv => (hs₁ v hv).not_issued hu₂.namedFrom⟩
  | record _ ih => exact ih (hp.next .record) (Ty.record.inj he)
  | rowFound _ _ hrow hl hu₁ hu₂ ih₁ ih₂ =>
    subst hrow
    obtain ⟨hf, ht⟩ := Ty.eval_found hl he
    have hp₁ := hp.next (.foundField hl)
    obtain ⟨ψ₁, hψ₁⟩ := ih₁ hp₁ hf
    have ht₁ := hψ₁.eval_stale hu₁.namedFrom (Ty.over_rowExtend.1 hp.left).2 hp.right.without ht
    obtain ⟨ψ₂, hψ₂⟩ := ih₂ (hp.next (.foundTail hl hu₁)) ht₁
    have hs₁ := (hp₁.settled hu₁).stale
    exact ⟨ψ₂, hψ₁.trans hψ₂ fun v hv => (hs₁ v hv).not_issued hu₂.namedFrom⟩
  | @rowOpened n label _ _ _ _ w _ _ _ _ _ _ hrow _ hl hw _ hu₁ hu₂ ih₁ ih₂ =>
    subst hrow
    have hp₁ := hp.next (.openedField hl hw)
    obtain ⟨ψ, hψ, ht⟩ := Valuation.exists_openedTail hp hl he hu₁.namedFrom fun hf => ih₁ hp₁ hf
    obtain ⟨χ, hχ⟩ := ih₂ (hp.next (.openedTail hl hw hu₁)) ht
    have hw' := Ty.over_var.1 (Ty.over_extendRow.1 hp.right).2
    have hs₀ := cfg.opening_settled hp.stems hw' label
    have hs := (hs₀.andThen hu₁ (hp₁.settled hu₁) (Nat.le_add_right ..)).stale
    exact ⟨χ, hψ.trans hχ fun v hv => (hs v hv).not_issued hu₂.namedFrom⟩
  | _ => exact ⟨φ, .refl φ⟩

/-! ## Unsolvable equations -/

theorem Clash.unsolvable {t₁ t₂ : Ty} (h : Clash t₁ t₂) (φ : TyVar → Ty) :
    t₁.eval φ ≠ t₂.eval φ := by
  intro he
  cases t₁ with
  | var v => exact h
  | rowExtend l f t =>
    cases t₂ with
    | var v => exact h
    | rowExtend l' f' t' => exact h
    | rowEmpty => exact h
    | _ => exact Ty.placeField_ne (fun _ _ _ hr => by cases hr) he
  | _ =>
    cases t₂ with
    | rowExtend l f t => exact Ty.placeField_ne (fun _ _ _ hr => by cases hr) he.symm
    -- With the same constructor the types do not clash; with others the readings differ.
    | _ => first | exact h.elim | cases he

theorem BindRefused.unsolvable {u : TyVar} {t : Ty} {f : Fault} (h : BindRefused u t f)
    (hv : ∀ v, t ≠ .var v) {k : Constraint} (ku : k.Within u.constraint) (kt : t.HasKind k)
    (φ : Valuation) : φ u ≠ t.eval φ := by
  have hlacks : ∀ {ls : Labels}, u.constraint = .lacks ls → ∃ ms, k = .lacks ms := by
    intro ls hc
    rw [hc] at ku
    cases k with
    | free => exact ku.elim
    | lacks ms => exact ⟨ms, rfl⟩
  cases h with
  | occurs hu => exact Ty.eval_ne_of_occurs φ hu (hv u)
  | notRow hc hr =>
    obtain ⟨ms, rfl⟩ := hlacks hc
    rw [kt.isRow] at hr
    cases hr
  | improper hc _ hd =>
    obtain ⟨ms, rfl⟩ := hlacks hc
    obtain ⟨r, hr⟩ := kt.isProper
    rw [hr] at hd
    cases hd
  | @clash ls r l hc hd hl hr =>
    intro he
    have hk := φ.hasKind u
    rw [hc, he, (Ty.decompose_ok hd).1] at hk
    exact hk.not_mem_of_rowLabels ((Ty.mem_rowLabels_eval_extendRow _).2 (.inl hr)) hl

theorem ExposeRefused.unsolvable {row : Ty} {label : String} {f : Fault}
    (h : ExposeRefused row label f) (hv : ∀ v, row ≠ .var v) {ls : Labels}
    (hrow : row.HasKind (.lacks ls)) (φ : Valuation) : label ∉ (row.eval φ).rowLabels := by
  cases h with
  | missing pre hr hl =>
    rw [hr, Ty.mem_rowLabels_eval_extendRow]
    rintro (h | h)
    · exact hl h
    · cases h
  | @excluded pre w hr _ hl hw =>
    rw [hr] at hrow ⊢
    have hk := φ.hasKind w
    rw [hrow.rowEnd_constraint] at hk
    rw [Ty.mem_rowLabels_eval_extendRow]
    rintro (h | h)
    · exact hl h
    · exact hk.not_mem_of_rowLabels h hw
  | bareVar hr => exact (hv _ hr).elim
  | badEnd pre hr _ ht =>
    rw [hr] at hrow
    rw [(Ty.hasKind_extendRow.1 hrow).2.2.isRow] at ht
    cases ht

/-- If unification of two types of one kind is refused, no values make the types equal. -/
theorem Refused.unsolvable {d : Nat} {t₁ t₂ : Ty} {vs : List TyVar} {f : Fault}
    (h : Refused cfg d n t₁ t₂ vs f) (hf : f ≠ .outOfFuel) (hp : WellPosed cfg n t₁ t₂)
    (φ : Valuation) : t₁.eval φ ≠ t₂.eval φ := by
  induction h generalizing φ with
  | tooDeep => exact absurd rfl hf
  | clash hc => exact hc.unsolvable φ
  | bindLeft hv hb =>
    obtain ⟨k, k₁, k₂⟩ := hp.sameKind
    exact hb.unsolvable hv k₁ k₂ φ
  | bindRight hv hb =>
    obtain ⟨k, k₁, k₂⟩ := hp.sameKind
    exact (hb.unsolvable hv k₂ k₁ φ).symm
  | fnArg _ ih => exact fun he => ih hf (hp.next .fnArg) φ (Ty.fn.inj he).1
  | fnRet hu _ ih =>
    intro he
    obtain ⟨ha, hr⟩ := Ty.fn.inj he
    obtain ⟨ψ, hψ⟩ := hu.general (hp.next .fnArg) ha
    exact ih hf (hp.next (.fnRet hu)) ψ
      (hψ.eval_stale hu.namedFrom (Ty.over_fn.1 hp.left).2 (Ty.over_fn.1 hp.right).2 hr)
  | record _ ih => exact fun he => ih hf (hp.next .record) φ (Ty.record.inj he)
  | rowImproper hd =>
    obtain ⟨k, k₁, k₂⟩ := hp.sameKind
    obtain ⟨ls, rfl⟩ := k₁.eq_lacks
    obtain ⟨r₁, hr₁⟩ := k₁.isProper
    obtain ⟨r₂, hr₂⟩ := k₂.isProper
    rw [hr₁, hr₂] at hd
    rcases hd with hd | hd <;> cases hd
  | rowExpose _ _ hv hx =>
    obtain ⟨k, k₁, k₂⟩ := hp.sameKind
    obtain ⟨ls, rfl⟩ := k₁.eq_lacks
    intro he
    exact hx.unsolvable hv k₂ φ (he ▸ Ty.mem_rowLabels_placeField.2 (.inl rfl))
  | rowShared _ _ hw _ hend =>
    obtain ⟨k, k₁, k₂⟩ := hp.sameKind
    obtain ⟨ls, rfl⟩ := k₁.eq_lacks
    exact (hw (k₁.2.2.mem_labels_of_rowEnd hend (OrdSet.mem_insert.2 (.inl rfl)))).elim
  | foundField _ _ hrow hl _ ih =>
    subst hrow
    exact fun he => ih hf (hp.next (.foundField hl)) φ (Ty.eval_found hl he).1
  | foundTail _ _ hrow hl hu _ ih =>
    subst hrow
    intro he
    obtain ⟨hfield, htail⟩ := Ty.eval_found hl he
    obtain ⟨ψ, hψ⟩ := hu.general (hp.next (.foundField hl)) hfield
    exact ih hf (hp.next (.foundTail hl hu)) ψ
      (hψ.eval_stale hu.namedFrom (Ty.over_rowExtend.1 hp.left).2 hp.right.without htail)
  | openedField _ _ hrow _ hl hw _ _ ih =>
    subst hrow
    intro he
    obtain ⟨ψ, -, hfield, -⟩ := Valuation.exists_openedField hp hl he
    exact ih hf (hp.next (.openedField hl hw)) ψ hfield
  | openedTail _ _ hrow _ hl hw _ hu _ ih =>
    subst hrow
    intro he
    obtain ⟨ψ, -, htail⟩ := Valuation.exists_openedTail hp hl he hu.namedFrom
      (hu.general (hp.next (.openedField hl hw)))
    exact ih hf (hp.next (.openedTail hl hw hu)) ψ htail

end General

/-! ## Whole runs -/

/-- With stems of one character, a run that can issue none of the variables of two types of one kind
finds a solution whenever there is one. Its answer `θ` solves the equation and respects kinds, and
any solution `σ` is `θ` followed by a respectful substitution, up to the order of fields. -/
theorem unify_mostGeneral (cfg : Config) (hcfg : cfg.SingleStems) (st : RunState) (t₁ t₂ : Ty)
    (k : Constraint) (k₁ : t₁.HasKind k) (k₂ : t₂.HasKind k)
    (h₁ : t₁.Over (cfg.Stale st.issued)) (h₂ : t₂.Over (cfg.Stale st.issued)) (σ : Subst)
    (hσ : σ.Respects) (he : RowEquiv (t₁.subst σ) (t₂.subst σ)) :
    ∃ θ st', unify t₁ t₂ cfg st = .ok θ st' ∧ θ.Respects ∧ RowEquiv (t₁.subst θ) (t₂.subst θ) ∧
      ∃ ρ : Subst, ρ.Respects ∧ ∀ v, v ∈ t₁.freeVars ∨ v ∈ t₂.freeVars →
        RowEquiv ((θ.app v).subst ρ) (σ.app v) := by
  have hp : WellPosed cfg st.issued t₁ t₂ := ⟨hcfg, ⟨k, k₁, k₂⟩, h₁, h₂⟩
  have hrun := unifyWithin_yields cfg (unifyDepth t₁ t₂) st.issued t₁ t₂
  -- The values that `σ` gives to the variables solve the equation.
  let φ := Valuation.self.after σ hσ
  have hφ : t₁.eval φ = t₂.eval φ := by
    rw [Valuation.eval_after, Valuation.eval_after]
    exact he.norm_eq
  cases hr : unify t₁ t₂ cfg st with
  | error f st' =>
    have hf := (hrun.of_error rfl hr).1
    exact absurd hφ (hf.unsolvable (hf.ne_outOfFuel (.inl hp.sameKind)) hp φ)
  | ok θ st' =>
    have hu := (hrun.of_ok rfl hr).1
    obtain ⟨ψ, hψ⟩ := hu.general hp hφ
    obtain ⟨ρ, hρ, hread⟩ :=
      ψ.exists_subst ((t₁.subst θ).freeVars ∪ (t₂.subst θ).freeVars).toList
    have hsound := rowEquiv_iff.2 (hu.sound hcfg h₁ h₂)
    refine ⟨θ, st', rfl, hu.respects k₁ k₂, hsound, ρ, hρ, fun v hv => rowEquiv_iff.2 ?_⟩
    have hover : (θ.app v).Over (· ∈ ((t₁.subst θ).freeVars ∪ (t₂.subst θ).freeVars).toList) := by
      intro u huv
      rw [OrdSet.mem_toList, OrdSet.mem_union, Ty.mem_freeVars_subst, Ty.mem_freeVars_subst]
      exact hv.imp (fun hv => ⟨v, hv, huv⟩) fun hv => ⟨v, hv, huv⟩
    have hstale : cfg.Stale st.issued v := hv.elim (h₁ v) (h₂ v)
    calc ((θ.app v).subst ρ).norm = (θ.app v).eval ψ := hread _ hover
      _ = ψ v := hψ.absorbs v
      _ = φ v := hψ.agree v (hstale.not_issued hu.namedFrom)
      _ = (σ.app v).norm := rfl

/-- A record with a field `x` of any type and others. -/
def recordWithX : Ty :=
  .record (.rowExtend "x" (.var ⟨"a0", .free⟩) (.var ⟨"r1", .lacks (.singleton "x")⟩))

/-- A record with a field `y` that has a field `x`, and others. -/
def recordWithY : Ty :=
  .record (.rowExtend "y" (.record (.rowExtend "x" .int .rowEmpty))
    (.var ⟨"r2", .lacks (.singleton "y")⟩))

/-- The two records agree if they have both fields, a boolean `x`, and no others. -/
def bothFields : Subst :=
  .ofList [(⟨"a0", .free⟩, .bool),
    (⟨"r1", .lacks (.singleton "x")⟩,
      .rowExtend "y" (.record (.rowExtend "x" .int .rowEmpty)) .rowEmpty),
    (⟨"r2", .lacks (.singleton "y")⟩, .rowExtend "x" .bool .rowEmpty)]

theorem unify_mostGeneral_bothFields :
    Config.SingleStems {} ∧ recordWithX.HasKind .free ∧ recordWithY.HasKind .free ∧
      recordWithX.Over (Config.Stale {} 3) ∧ recordWithY.Over (Config.Stale {} 3) ∧
      bothFields.Respects ∧ recordWithX.subst bothFields ≠ recordWithY.subst bothFields ∧
      RowEquiv (recordWithX.subst bothFields) (recordWithY.subst bothFields) ∧
      ∃ θ st', unify recordWithX recordWithY {} { issued := 3 } = .ok θ st' ∧ θ.Respects ∧
        RowEquiv (recordWithX.subst θ) (recordWithY.subst θ) ∧
        ∃ ρ : Subst, ρ.Respects ∧ ∀ v, v ∈ recordWithX.freeVars ∨ v ∈ recordWithY.freeVars →
          RowEquiv ((θ.app v).subst ρ) (bothFields.app v) := by
  have hcfg : Config.SingleStems {} := ⟨rfl, rfl⟩
  have hvs : NamedFrom (Config.OwnStem {}) 0
      [⟨"a0", .free⟩, ⟨"r1", .lacks (.singleton "x")⟩, ⟨"r2", .lacks (.singleton "y")⟩] :=
    ⟨⟨_, 0, .inl rfl, rfl, rfl⟩, ⟨_, 1, .inr rfl, rfl, rfl⟩, ⟨_, 2, .inr rfl, rfl, rfl⟩, trivial⟩
  have h₁ : recordWithX.Over (Config.Stale {} 3) := Config.over_stale_of_issued hcfg hvs (by decide)
  have h₂ : recordWithY.Over (Config.Stale {} 3) := Config.over_stale_of_issued hcfg hvs (by decide)
  have k₁ : recordWithX.HasKind .free := by decide
  have k₂ : recordWithY.HasKind .free := by decide
  have hσ : bothFields.Respects :=
    ((Subst.Respects.singleton (by decide)).insert (by decide)).insert (by decide)
  have he : RowEquiv (recordWithX.subst bothFields) (recordWithY.subst bothFields) := by
    decide +kernel
  exact ⟨hcfg, k₁, k₂, h₁, h₂, hσ, by decide +kernel, he,
    unify_mostGeneral {} hcfg { issued := 3 } _ _ _ k₁ k₂ h₁ h₂ _ hσ he⟩

end RowTyping
