import Mathlib.Algebra.BigOperators.Group.Finset.Basic
import Mathlib.Algebra.Order.BigOperators.Group.Finset
import RowTyping.Proofs.Unify.Supply

/-!
# What a substitution costs

The types that unification meets share a stock of variables and a set of labels (`Ty.Uses`). Each
variable has a weight: what it may still come to lack. `Spends M V H s V' k` says that a
substitution leaves a stock that is lighter by `k` and makes types at most `2 ^ k` times as deep.
Costs add up under composition (`Spends.compose`).
-/

namespace RowTyping

open Finset

/-! ## Depth -/

namespace Ty

/-- The number of constructors above the deepest leaf of a type. -/
def depth : Ty → Nat
  | var _ | int | bool | rowEmpty => 0
  | fn a r => max a.depth r.depth + 1
  | record r => r.depth + 1
  | rowExtend _ f t => max f.depth t.depth + 1

theorem depth_lt_size (t : Ty) : t.depth < t.size := by
  induction t with
  | fn a r iha ihr => simp only [depth, size]; omega
  | record r ih => simp only [depth, size]; omega
  | rowExtend l f t ihf iht => simp only [depth, size]; omega
  | _ => exact Nat.one_pos

theorem depth_subst_le {s : Subst} {b : Nat} {t : Ty}
    (h : ∀ v ∈ t.freeVars, (s.app v).depth ≤ b) : (t.subst s).depth ≤ t.depth + b := by
  induction t with
  | var v =>
    rw [subst_var]
    exact (h v (by simp)).trans (Nat.le_add_left ..)
  | fn a r iha ihr =>
    simp only [mem_freeVars_fn] at h
    have ha := iha fun v hv => h v (.inl hv)
    have hr := ihr fun v hv => h v (.inr hv)
    simp only [subst, depth]
    omega
  | record r ih =>
    have hr := ih h
    simp only [subst, depth]
    omega
  | rowExtend l f t ihf iht =>
    simp only [mem_freeVars_rowExtend] at h
    have hf := ihf fun v hv => h v (.inl hv)
    have ht := iht fun v hv => h v (.inr hv)
    simp only [subst, depth]
    omega
  | _ => exact Nat.zero_le _

theorem depth_extendRow_mono (pre : List (String × Ty)) {t t' : Ty} (h : t.depth ≤ t'.depth) :
    (extendRow pre t).depth ≤ (extendRow pre t').depth := by
  induction pre with
  | nil => exact h
  | cons e pre ih =>
    simp only [extendRow_cons, depth]
    omega

theorem depth_le_extendRow (pre : List (String × Ty)) (t : Ty) :
    t.depth ≤ (extendRow pre t).depth := by
  induction pre with
  | nil => exact Nat.le_refl _
  | cons e pre ih =>
    simp only [extendRow_cons, depth]
    omega

end Ty

/-! ## Labels and variables in use -/

/-- The type has only labels of `M` and variables of `V`. -/
structure Ty.Uses (M : Finset String) (V : Finset TyVar) (t : Ty) : Prop where
  labels : ∀ l ∈ t.fieldLabels.toList, l ∈ M
  vars : t.Over (· ∈ V)

namespace Ty

variable {M : Finset String} {V : Finset TyVar}

theorem uses_var {v : TyVar} : (var v).Uses M V ↔ v ∈ V :=
  ⟨fun h => over_var.1 h.vars, fun h => ⟨by simp [fieldLabels, OrdSet.empty], over_var.2 h⟩⟩

theorem uses_fn {a r : Ty} : (fn a r).Uses M V ↔ a.Uses M V ∧ r.Uses M V := by
  constructor
  · rintro ⟨hl, hv⟩
    rw [over_fn] at hv
    exact ⟨⟨fun l h => hl l (OrdSet.mem_union.2 (.inl h)), hv.1⟩,
      ⟨fun l h => hl l (OrdSet.mem_union.2 (.inr h)), hv.2⟩⟩
  · rintro ⟨ha, hr⟩
    exact ⟨fun l h => (OrdSet.mem_union.1 h).elim (ha.labels l) (hr.labels l),
      over_fn.2 ⟨ha.vars, hr.vars⟩⟩

theorem uses_record {r : Ty} : (record r).Uses M V ↔ r.Uses M V :=
  ⟨fun h => ⟨h.labels, h.vars⟩, fun h => ⟨h.labels, h.vars⟩⟩

theorem uses_rowExtend {l : String} {f t : Ty} :
    (rowExtend l f t).Uses M V ↔ l ∈ M ∧ f.Uses M V ∧ t.Uses M V := by
  have hmem : ∀ {m : String}, m ∈ (rowExtend l f t).fieldLabels.toList ↔
      m = l ∨ m ∈ f.fieldLabels ∨ m ∈ t.fieldLabels :=
    OrdSet.mem_insert.trans (or_congr_right OrdSet.mem_union)
  constructor
  · rintro ⟨hl, hv⟩
    rw [over_rowExtend] at hv
    exact ⟨hl l (hmem.2 (.inl rfl)), ⟨fun m h => hl m (hmem.2 (.inr (.inl h))), hv.1⟩,
      ⟨fun m h => hl m (hmem.2 (.inr (.inr h))), hv.2⟩⟩
  · rintro ⟨hl, hf, ht⟩
    refine ⟨fun m h => ?_, over_rowExtend.2 ⟨hf.vars, ht.vars⟩⟩
    rcases hmem.1 h with rfl | h | h
    · exact hl
    · exact hf.labels m h
    · exact ht.labels m h

theorem uses_extendRow {pre : List (String × Ty)} {t : Ty} :
    (extendRow pre t).Uses M V ↔ (∀ e ∈ pre, e.1 ∈ M ∧ e.2.Uses M V) ∧ t.Uses M V := by
  induction pre with
  | nil => simp
  | cons e pre ih => simp [uses_rowExtend, ih, and_assoc]

theorem Uses.mono {V' : Finset TyVar} {t : Ty} (h : t.Uses M V) (hV : ∀ v ∈ t.freeVars, v ∈ V') :
    t.Uses M V' := ⟨h.labels, hV⟩

theorem Uses.subst {V' : Finset TyVar} {s : Subst} {t : Ty} (h : t.Uses M V)
    (hs : ∀ v ∈ t.freeVars, (s.app v).Uses M V') : (t.subst s).Uses M V' := by
  induction t with
  | var v => exact hs v (by simp)
  | fn a r iha ihr =>
    simp only [mem_freeVars_fn] at hs
    rw [uses_fn] at h
    exact uses_fn.2 ⟨iha h.1 fun v hv => hs v (.inl hv), ihr h.2 fun v hv => hs v (.inr hv)⟩
  | record r ih => exact uses_record.2 (ih (uses_record.1 h) hs)
  | rowExtend l f t ihf iht =>
    simp only [mem_freeVars_rowExtend] at hs
    rw [uses_rowExtend] at h
    exact uses_rowExtend.2 ⟨h.1, ihf h.2.1 fun v hv => hs v (.inl hv),
      iht h.2.2 fun v hv => hs v (.inr hv)⟩
  | int => exact h.mono (by simp)
  | bool => exact h.mono (by simp)
  | rowEmpty => exact h.mono (by simp)

end Ty

/-! ## Weight -/

/-- What a variable may still come to lack, out of the labels `M`. -/
def TyVar.weight (M : Finset String) (v : TyVar) : Nat :=
  match v.constraint with
  | .free => #M + 2
  | .lacks ls => #{l ∈ M | l ∉ ls} + 1

/-- The weight of a stock of variables. -/
def stock (M : Finset String) (V : Finset TyVar) : Nat := ∑ v ∈ V, v.weight M

section Weight

variable {M : Finset String} {V : Finset TyVar} {u v r : TyVar} {ls : Labels}

theorem weight_free (h : v.constraint = .free) : v.weight M = #M + 2 := by
  rw [TyVar.weight, h]

theorem weight_lacks (h : v.constraint = .lacks ls) : v.weight M = #{l ∈ M | l ∉ ls} + 1 := by
  rw [TyVar.weight, h]

theorem weight_pos (M : Finset String) (v : TyVar) : 0 < v.weight M := by
  unfold TyVar.weight
  split <;> exact Nat.succ_pos _

theorem weight_le (M : Finset String) (v : TyVar) : v.weight M ≤ #M + 2 := by
  unfold TyVar.weight
  split
  · exact Nat.le_refl _
  · next ls _ =>
    have hM : #{l ∈ M | l ∉ ls} ≤ #M := card_filter_le M _
    omega

/-- A variable that lacks more weighs no more. -/
theorem weight_le_weight (hr : r.constraint = .lacks ls) (h : ∀ l, l ∈ v.labels → l ∈ ls) :
    r.weight M ≤ v.weight M := by
  rw [weight_lacks hr]
  cases hv : v.constraint with
  | free =>
    have hM : #{l ∈ M | l ∉ ls} ≤ #M := card_filter_le M _
    rw [weight_free hv]
    omega
  | lacks ms =>
    rw [TyVar.labels, hv] at h
    rw [weight_lacks hv]
    refine Nat.add_le_add_right (card_le_card fun l hl => ?_) 1
    rw [mem_filter] at hl ⊢
    exact ⟨hl.1, fun hm => hl.2 (h l hm)⟩

/-- A variable that comes to lack a label weighs less. -/
theorem weight_lt_weight (hr : r.constraint = .lacks ls) (h : ∀ l, l ∈ v.labels → l ∈ ls)
    {label : String} (hM : label ∈ M) (hv : label ∉ v.labels) (hls : label ∈ ls) :
    r.weight M < v.weight M := by
  rw [weight_lacks hr]
  cases hc : v.constraint with
  | free =>
    have hM : #{l ∈ M | l ∉ ls} ≤ #M := card_filter_le M _
    rw [weight_free hc]
    omega
  | lacks ms =>
    rw [TyVar.labels, hc] at h hv
    rw [weight_lacks hc]
    have hsub : {l ∈ M | l ∉ ls} ⊆ {l ∈ M | l ∉ ms} := fun l hl => by
      rw [mem_filter] at hl ⊢
      exact ⟨hl.1, fun hm => hl.2 (h l hm)⟩
    have hlabel : label ∉ ({l ∈ M | l ∉ ls} : Finset String) := fun hl =>
      (mem_filter.1 hl).2 hls
    exact Nat.add_lt_add_right (card_lt_card ((ssubset_iff_of_subset hsub).2
      ⟨label, mem_filter.2 ⟨hM, hv⟩, hlabel⟩)) 1

theorem stock_erase (h : v ∈ V) : stock M (V.erase v) + v.weight M = stock M V :=
  sum_erase_add V _ h

theorem stock_insert_le (M : Finset String) (V : Finset TyVar) (v : TyVar) :
    stock M (insert v V) ≤ stock M V + v.weight M := by
  by_cases h : v ∈ V
  · rw [insert_eq_of_mem h]
    exact Nat.le_add_right ..
  · rw [stock, sum_insert h, Nat.add_comm]
    exact Nat.le_refl _

end Weight

/-! ## What a unifier costs -/

/-- The substitution turns types over the stock `V`, less than `H` deep, into types over `V'`. It
costs `k`: the new stock is that much lighter, and the types may become `2 ^ k` times as deep. -/
structure Spends (M : Finset String) (V : Finset TyVar) (H : Nat) (s : Subst)
    (V' : Finset TyVar) (k : Nat) : Prop where
  lighter : stock M V' + k ≤ stock M V
  rest : ∀ v ∈ V, v ∉ s.keys → v ∈ V'
  uses : ∀ v τ, s.get? v = some τ → τ.Uses M V'
  depth : ∀ v τ, s.get? v = some τ → τ.depth + H ≤ 2 ^ k * H

namespace Spends

variable {M : Finset String} {V V' : Finset TyVar} {H k : Nat} {s : Subst}

theorem app_uses (h : Spends M V H s V' k) {v : TyVar} (hv : v ∈ V) : (s.app v).Uses M V' := by
  cases hs : s.get? v with
  | none =>
    have hk := OrderedMap.get?_eq_none_iff.1 hs
    rw [Subst.app_of_not_mem hk]
    exact Ty.uses_var.2 (h.rest v hv hk)
  | some τ =>
    rw [Subst.app_of_get? hs]
    exact h.uses v τ hs

theorem app_depth (h : Spends M V H s V' k) (v : TyVar) : (s.app v).depth + H ≤ 2 ^ k * H := by
  cases hs : s.get? v with
  | none =>
    rw [Subst.app_of_not_mem (OrderedMap.get?_eq_none_iff.1 hs), Ty.depth, Nat.zero_add]
    exact Nat.le_mul_of_pos_left H (Nat.two_pow_pos k)
  | some τ =>
    rw [Subst.app_of_get? hs]
    exact h.depth v τ hs

theorem uses_subst (h : Spends M V H s V' k) {t : Ty} (ht : t.Uses M V) : (t.subst s).Uses M V' :=
  ht.subst fun v hv => h.app_uses (ht.vars v hv)

theorem depth_subst (h : Spends M V H s V' k) (t : Ty) :
    (t.subst s).depth + H ≤ t.depth + 2 ^ k * H := by
  have hpos : H ≤ 2 ^ k * H := Nat.le_mul_of_pos_left H (Nat.two_pow_pos k)
  have hb : ∀ v ∈ t.freeVars, (s.app v).depth ≤ 2 ^ k * H - H := fun v _ => by
    have := h.app_depth v
    omega
  have := Ty.depth_subst_le hb
  omega

theorem depth_subst_lt (h : Spends M V H s V' k) {t : Ty} (ht : t.depth < H) :
    (t.subst s).depth < 2 ^ k * H := by
  have := h.depth_subst t
  omega

theorem empty (M : Finset String) (V : Finset TyVar) (H : Nat) : Spends M V H .empty V 0 where
  lighter := Nat.le_refl _
  rest _ hv _ := hv
  uses _ _ h := by cases h
  depth _ _ h := by cases h

theorem compose {V₁ V₂ : Finset TyVar} {k₁ k₂ : Nat} {s₁ s₂ : Subst}
    (h₁ : Spends M V H s₁ V₁ k₁) (h₂ : Spends M V₁ (2 ^ k₁ * H) s₂ V₂ k₂) :
    Spends M V H (s₂.compose s₁) V₂ (k₁ + k₂) := by
  have hpow : 2 ^ k₂ * (2 ^ k₁ * H) = 2 ^ (k₁ + k₂) * H := by
    rw [pow_add, Nat.mul_assoc, Nat.mul_left_comm]
  have hH : H ≤ 2 ^ k₁ * H := Nat.le_mul_of_pos_left H (Nat.two_pow_pos k₁)
  refine ⟨?_, fun v hv hk => ?_, fun v τ hτ => ?_, fun v τ hτ => ?_⟩
  · have := h₁.lighter
    have := h₂.lighter
    omega
  · rw [Subst.mem_keys_compose, not_or] at hk
    exact h₂.rest v (h₁.rest v hv hk.2) hk.1
  · rcases Subst.get?_compose_eq_some hτ with hτ | ⟨t₀, ht₀, rfl⟩
    · exact h₂.uses v τ hτ
    · exact h₂.uses_subst (h₁.uses v t₀ ht₀)
  · rw [← hpow]
    rcases Subst.get?_compose_eq_some hτ with hτ | ⟨t₀, ht₀, rfl⟩
    · have := h₂.depth v τ hτ
      omega
    · have := h₁.depth v t₀ ht₀
      have := h₂.depth_subst t₀
      omega

/-- A variable gives way to a type without it. -/
theorem bind {u : TyVar} {t : Ty} (hu : u ∈ V) (ht : t.Uses M V) (hut : u ∉ t.freeVars)
    (hd : t.depth < H) : Spends M V H (.singleton u t) (V.erase u) 1 := by
  refine ⟨?_, fun v hv hk => ?_, fun v τ h => ?_, fun v τ h => ?_⟩
  · have := stock_erase (M := M) hu
    have := weight_pos M u
    omega
  · exact mem_erase.2 ⟨fun he => hk (OrderedMap.mem_keys_singleton.2 he), hv⟩
  · obtain ⟨rfl, rfl⟩ := OrderedMap.get?_singleton_eq_some h
    exact ht.mono fun w hw => mem_erase.2 ⟨fun he => hut (he ▸ hw), ht.vars w hw⟩
  · obtain ⟨rfl, rfl⟩ := OrderedMap.get?_singleton_eq_some h
    omega

/-- A variable gives way to one that weighs no more. -/
theorem rename {w r : TyVar} (hw : w ∈ V) (hr : r.weight M ≤ w.weight M) :
    Spends M V H (.singleton w (.var r)) (insert r (V.erase w)) 0 := by
  refine ⟨?_, fun v hv hk => ?_, fun v τ h => ?_, fun v τ h => ?_⟩
  · have := stock_erase (M := M) hw
    have := stock_insert_le M (V.erase w) r
    omega
  · exact mem_insert_of_mem (mem_erase.2 ⟨fun he => hk (OrderedMap.mem_keys_singleton.2 he), hv⟩)
  · obtain ⟨rfl, rfl⟩ := OrderedMap.get?_singleton_eq_some h
    exact Ty.uses_var.2 (mem_insert_self ..)
  · obtain ⟨rfl, rfl⟩ := OrderedMap.get?_singleton_eq_some h
    rw [Ty.depth]
    omega

end Spends

end RowTyping
