import RowTyping.Proofs.Unify.Kinds
import RowTyping.Proofs.Unify.Stock

/-!
# The depth of unification

Unification ends, and within the depth that `unifyDepth` computes from the two types
(`Refused.ne_outOfFuel`).

A unifier takes variables out of the stock of the two types or exchanges them for lighter ones, so
every unifier has a cost (`Unified.spends`). Only opening the end of a row brings in a variable that
weighs more than what it stands for, a fresh field type; the very next equation takes one such
variable away (`Unified.opening_spends`).

Opening must not meet a variable that it issues itself. This is so if the two types are well kinded,
and also if the run issues only new variables (`Orderly`).
-/

namespace RowTyping

open Finset

/-! ## The two ways to open rows safely -/

/-- No variable of the two types gets into the way of unification: they are well kinded, or the
run can issue none of them. -/
def Orderly (cfg : Config) (n : Nat) (t₁ t₂ : Ty) : Prop :=
  (∃ k, t₁.HasKind k ∧ t₂.HasKind k) ∨
    (cfg.SingleStems ∧ t₁.Over (cfg.Stale n) ∧ t₂.Over (cfg.Stale n))

namespace Orderly

variable {cfg : Config} {n : Nat}

theorem next {m : Nat} {t₁ t₂ u₁ u₂ : Ty} (h : Orderly cfg n t₁ t₂)
    (hl : Leads cfg n t₁ t₂ m u₁ u₂) : Orderly cfg m u₁ u₂ := by
  rcases h with ⟨k, h₁, h₂⟩ | ⟨hcfg, h₁, h₂⟩
  · exact .inl (hl.sameKind h₁ h₂)
  · exact .inr ⟨hcfg, hl.stale hcfg h₁ h₂⟩

theorem end_ne {label : String} {field tail : Ty} {pre : List (String × Ty)} {w : TyVar}
    (h : Orderly cfg n (.rowExtend label field tail) (.extendRow pre (.var w))) :
    w ≠ cfg.typeVar (n + 1) := by
  rcases h with ⟨k, h₁, h₂⟩ | ⟨hcfg, h₁, h₂⟩
  · obtain ⟨ls, rfl⟩ := h₁.eq_lacks
    intro hw
    have hc := h₂.rowEnd_constraint
    rw [hw] at hc
    cases hc
  · rw [Ty.over_extendRow, Ty.over_var] at h₂
    exact h₂.2.ne_typeVar (Nat.le_succ n)

end Orderly

/-! ## Every unifier has a cost -/

section Costs

variable {cfg : Config} {M : Finset String} {V : Finset TyVar} {H n : Nat}

theorem rowVars_spends {u v r : TyVar} (huv : u ≠ v) (hu : u ∈ V) (hv : v ∈ V)
    (hr : r.constraint = .lacks (u.labels ∪ v.labels)) :
    Spends M V H ((OrderedMap.singleton u (.var r)).insert v (.var r))
      (insert r ((V.erase u).erase v)) 1 := by
  have hget : ∀ x τ, ((OrderedMap.singleton u (Ty.var r)).insert v (.var r)).get? x = some τ →
      τ = .var r := by
    intro x τ h
    rw [OrderedMap.get?_insert] at h
    split at h
    · exact (Option.some.inj h).symm
    · exact (OrderedMap.get?_singleton_eq_some h).2
  refine ⟨?_, fun x hx hk => ?_, fun x τ h => ?_, fun x τ h => ?_⟩
  · -- The new variable weighs no more than one of the two that it replaces; the other is gained.
    have hru : r.weight M ≤ u.weight M :=
      weight_le_weight hr fun l hl => OrdSet.mem_union.2 (.inl hl)
    have hv' : v ∈ V.erase u := mem_erase.2 ⟨huv.symm, hv⟩
    have := stock_erase (M := M) hu
    have := stock_erase (M := M) hv'
    have := stock_insert_le M ((V.erase u).erase v) r
    have := weight_pos M v
    omega
  · have hxu : x ≠ u := fun he => hk (OrderedMap.mem_keys_iff.2 ⟨.var r, by
      rw [OrderedMap.get?_insert, OrderedMap.get?_singleton, if_pos he, ite_self]⟩)
    have hxv : x ≠ v := fun he => hk (OrderedMap.mem_keys_iff.2 ⟨.var r, by
      rw [OrderedMap.get?_insert, if_pos he]⟩)
    exact mem_insert_of_mem (mem_erase.2 ⟨hxv, mem_erase.2 ⟨hxu, hx⟩⟩)
  · rw [hget x τ h]
    exact Ty.uses_var.2 (mem_insert_self ..)
  · rw [hget x τ h, Ty.depth]
    omega

theorem Binds.spends {u : TyVar} {t : Ty} {vs : List TyVar} {s : Subst}
    (h : Binds cfg n u t vs s) (hu : u ∈ V) (ht : t.Uses M V) (hd : t.depth < H) :
    ∃ V' k, Spends M V H s V' k := by
  cases h with
  | type hut => exact ⟨_, _, .bind hu ht hut hd⟩
  | closed hut => exact ⟨_, _, .bind hu ht hut hd⟩
  | @opened ls fields w hut _ hdec _ =>
    have hw : w ∈ t.freeVars := Ty.mem_freeVars_of_decompose hdec
    have hwV : w ∈ V.erase u := mem_erase.2 ⟨fun he => hut (he ▸ hw), ht.vars w hw⟩
    refine ⟨_, _, (Spends.bind hu ht hut hd).compose (.rename hwV ?_)⟩
    exact weight_le_weight (cfg.rowVar_constraint n _) fun l hl => OrdSet.mem_union.2 (.inr hl)

/-- What it means to unify a type with an unconstrained variable. -/
theorem Unified.var_right {t : Ty} {γ : TyVar} {vs : List TyVar} {s : Subst}
    (h : Unified cfg n t (.var γ) vs s) (hγ : γ.constraint = .free) :
    (t = .var γ ∧ s = .empty) ∨
    (∃ v, t = .var v ∧ v ≠ γ ∧ v.constraint = .free ∧ s = .singleton v (.var γ)) ∨
    (∃ v r, t = .var v ∧ v ≠ γ ∧ r.constraint = .lacks (v.labels ∪ γ.labels) ∧
      s = (OrderedMap.singleton v (.var r)).insert γ (.var r)) ∨
    (γ ∉ t.freeVars ∧ s = .singleton γ t) := by
  cases h with
  | sameVar => exact .inl ⟨rfl, rfl⟩
  | typeVars hne hv => exact .inr (.inl ⟨_, rfl, hne, hv, rfl⟩)
  | rowVars hne => exact .inr (.inr (.inl ⟨_, _, rfl, hne, rfl, rfl⟩))
  | bindLeft hv => exact absurd rfl (hv γ)
  | bindRight _ hb =>
    cases hb with
    | type hut => exact .inr (.inr (.inr ⟨hut, rfl⟩))
    | closed _ hc => rw [hγ] at hc; cases hc
    | opened _ hc => rw [hγ] at hc; cases hc
  | @rowFound _ _ _ _ _ _ _ pre _ _ _ _ _ _ hrow => cases pre <;> cases hrow
  | @rowOpened _ _ _ _ _ pre _ _ _ _ _ _ _ hrow hpre =>
    cases pre with
    | nil => exact absurd rfl hpre
    | cons => cases hrow

section Opening

variable {w : TyVar} {label : String}

/-- Opening a row and then unifying the new field costs as little as the exchange of the row's end
for one that lacks a label more. -/
theorem Spends.of_opening {V' : Finset TyVar} {s : Subst} (hV : stock M V' + 1 ≤ stock M V)
    (hrest : ∀ v ∈ V, v ≠ w → v ∉ s.keys → v ∈ V')
    (hs : ∀ v τ, s.get? v = some τ → τ.Uses M V' ∧ τ.depth < H) (hl : label ∈ M)
    (hγ : (s.app (cfg.typeVar (n + 1))).Uses M V' ∧ (s.app (cfg.typeVar (n + 1))).depth < H)
    (hβ : (s.app (cfg.rowVar n (w.labels ∪ .singleton label))).Uses M V' ∧
      (s.app (cfg.rowVar n (w.labels ∪ .singleton label))).depth < H) :
    Spends M V H (s.compose (cfg.opening n w label)) V' 1 := by
  refine ⟨hV, fun v hv hk => ?_, fun v τ h => ?_, fun v τ h => ?_⟩
  · rw [Subst.mem_keys_compose, not_or] at hk
    exact hrest v hv (fun he => hk.2 (OrderedMap.mem_keys_singleton.2 he)) hk.1
  · rcases Subst.get?_compose_eq_some h with h | ⟨t₀, ht₀, rfl⟩
    · exact (hs v τ h).1
    · obtain ⟨-, rfl⟩ := OrderedMap.get?_singleton_eq_some ht₀
      exact Ty.uses_rowExtend.2 ⟨hl, hγ.1, hβ.1⟩
  · rcases Subst.get?_compose_eq_some h with h | ⟨t₀, ht₀, rfl⟩
    · have := (hs v τ h).2
      omega
    · obtain ⟨-, rfl⟩ := OrderedMap.get?_singleton_eq_some ht₀
      have := hγ.2
      have := hβ.2
      show max (s.app _).depth (s.app _).depth + 1 + H ≤ 2 ^ 1 * H
      omega

theorem subst_opening_eq_var {field : Ty} {v : TyVar}
    (h : field.subst (cfg.opening n w label) = .var v) : field = .var v ∧ v ≠ w := by
  cases field with
  | var x =>
    rw [Ty.subst_var, Config.opening, Subst.app_singleton] at h
    split at h
    · cases h
    · next hx =>
      cases h
      exact ⟨rfl, hx⟩
  | _ => cases h

theorem opened_weight_lt (cfg : Config) (n : Nat) (hlw : label ∉ w.labels) (hl : label ∈ M) :
    (cfg.rowVar n (w.labels ∪ .singleton label)).weight M < w.weight M :=
  weight_lt_weight rfl (fun _ h => OrdSet.mem_union.2 (.inl h)) hl hlw
    (OrdSet.mem_union.2 (.inr (OrdSet.mem_singleton.2 rfl)))

/-- The case of a field whose type is a variable: it is exchanged for another one. -/
theorem Spends.of_opening_var {s : Subst} {v x : TyVar} (hw : w ∈ V) (hlw : label ∉ w.labels)
    (hl : label ∈ M) (hH : 0 < H) (hv : v ∈ V) (hvw : v ≠ w) (hx : x.weight M ≤ v.weight M)
    (hvs : v ∈ s.keys) (hs : ∀ y τ, s.get? y = some τ → τ = .var x)
    (hγ : s.app (cfg.typeVar (n + 1)) = .var x) :
    ∃ V', Spends M V H (s.compose (cfg.opening n w label)) V' 1 ∧
      (s.app (cfg.rowVar n (w.labels ∪ .singleton label))).Uses M V' := by
  have hβw := opened_weight_lt cfg n hlw hl
  have hβ : s.app (cfg.rowVar n (w.labels ∪ .singleton label)) =
      .var (cfg.rowVar n (w.labels ∪ .singleton label)) ∨
      s.app (cfg.rowVar n (w.labels ∪ .singleton label)) = .var x := by
    cases hg : s.get? (cfg.rowVar n (w.labels ∪ .singleton label)) with
    | none => exact .inl (Subst.app_of_not_mem (OrderedMap.get?_eq_none_iff.1 hg))
    | some τ => exact .inr ((Subst.app_of_get? hg).trans (hs _ τ hg))
  let V' := insert x (insert (cfg.rowVar n (w.labels ∪ .singleton label)) ((V.erase w).erase v))
  have hxV : (Ty.var x).Uses M V' := Ty.uses_var.2 (mem_insert_self ..)
  have hβV : (s.app (cfg.rowVar n (w.labels ∪ .singleton label))).Uses M V' ∧
      (s.app (cfg.rowVar n (w.labels ∪ .singleton label))).depth < H := by
    rcases hβ with hβ | hβ <;> rw [hβ]
    · exact ⟨Ty.uses_var.2 (mem_insert_of_mem (mem_insert_self ..)), hH⟩
    · exact ⟨hxV, hH⟩
  refine ⟨V', .of_opening ?_ (fun y hy hyw hyk => ?_) (fun y τ h => ?_) hl ?_ hβV, hβV.1⟩
  · have := stock_erase (M := M) hw
    have := stock_erase (M := M) (mem_erase.2 ⟨hvw, hv⟩)
    have := stock_insert_le M ((V.erase w).erase v) (cfg.rowVar n (w.labels ∪ .singleton label))
    have := stock_insert_le M (insert (cfg.rowVar n (w.labels ∪ .singleton label))
      ((V.erase w).erase v)) x
    show stock M (insert x (insert _ _)) + 1 ≤ stock M V
    omega
  · have hyv : y ≠ v := fun he => hyk (he ▸ hvs)
    exact mem_insert_of_mem (mem_insert_of_mem (mem_erase.2 ⟨hyv, mem_erase.2 ⟨hyw, hy⟩⟩))
  · rw [hs y τ h]
    exact ⟨hxV, hH⟩
  · rw [hγ]
    exact ⟨hxV, hH⟩

/-- The case of any other field: the new field type gives way to it, or is the same. -/
theorem Spends.of_opening_field {field : Ty} {s : Subst} (hw : w ∈ V) (hlw : label ∉ w.labels)
    (hl : label ∈ M) (hf : field.Uses M (V.erase w)) (hd : field.depth < H)
    (hs : ∀ y τ, s.get? y = some τ → y = cfg.typeVar (n + 1) ∧ τ = field)
    (hγ : s.app (cfg.typeVar (n + 1)) = field) :
    ∃ V', Spends M V H (s.compose (cfg.opening n w label)) V' 1 ∧
      (s.app (cfg.rowVar n (w.labels ∪ .singleton label))).Uses M V' := by
  have hβw := opened_weight_lt cfg n hlw hl
  have hβ : s.app (cfg.rowVar n (w.labels ∪ .singleton label)) =
      .var (cfg.rowVar n (w.labels ∪ .singleton label)) := by
    refine Subst.app_of_not_mem fun hk => ?_
    obtain ⟨τ, hτ⟩ := OrderedMap.mem_keys_iff.1 hk
    have hc := congrArg TyVar.constraint (hs _ τ hτ).1
    cases hc
  let V' := insert (cfg.rowVar n (w.labels ∪ .singleton label)) (V.erase w)
  have hfV : field.Uses M V' := hf.mono fun v hv => mem_insert_of_mem (hf.vars v hv)
  have hβV : (s.app (cfg.rowVar n (w.labels ∪ .singleton label))).Uses M V' := by
    rw [hβ]
    exact Ty.uses_var.2 (mem_insert_self ..)
  refine ⟨V', .of_opening ?_ (fun y hy hyw _ => mem_insert_of_mem (mem_erase.2 ⟨hyw, hy⟩))
    (fun y τ h => ?_) hl ?_ ⟨hβV, ?_⟩, hβV⟩
  · have := stock_erase (M := M) hw
    have := stock_insert_le M (V.erase w) (cfg.rowVar n (w.labels ∪ .singleton label))
    show stock M (insert _ _) + 1 ≤ stock M V
    omega
  · rw [(hs y τ h).2]
    exact ⟨hfV, hd⟩
  · rw [hγ]
    exact ⟨hfV, hd⟩
  · rw [hβ]
    exact (Nat.zero_le _).trans_lt hd

theorem Unified.opening_spends {field : Ty} {vs : List TyVar} {s : Subst}
    (hu : Unified cfg (n + 2) (field.subst (cfg.opening n w label))
      ((Ty.var (cfg.typeVar (n + 1))).subst (cfg.opening n w label)) vs s)
    (hwγ : w ≠ cfg.typeVar (n + 1)) (hw : w ∈ V) (hlw : label ∉ w.labels) (hl : label ∈ M)
    (hf : field.Uses M V) (hd : field.depth < H) :
    ∃ V', Spends M V H (s.compose (cfg.opening n w label)) V' 1 ∧
      ((s.compose (cfg.opening n w label)).app
        (cfg.rowVar n (w.labels ∪ .singleton label))).Uses M V' := by
  have hH : 0 < H := (Nat.zero_le _).trans_lt hd
  have hγ : (Ty.var (cfg.typeVar (n + 1))).subst (cfg.opening n w label) =
      .var (cfg.typeVar (n + 1)) := (Subst.app_singleton ..).trans (if_neg hwγ.symm)
  have hβ : (s.compose (cfg.opening n w label)).app (cfg.rowVar n (w.labels ∪ .singleton label)) =
      s.app (cfg.rowVar n (w.labels ∪ .singleton label)) := by
    have h₀ : (cfg.opening n w label).app (cfg.rowVar n (w.labels ∪ .singleton label)) =
        .var (cfg.rowVar n (w.labels ∪ .singleton label)) :=
      (Subst.app_singleton ..).trans (if_neg (rowVar_union_ne hlw).symm)
    rw [Subst.app_compose, h₀]
    exact ite_self _
  rw [hγ] at hu
  rw [hβ]
  rcases hu.var_right rfl with ⟨ht, rfl⟩ | ⟨v, ht, hne, hv, rfl⟩ | ⟨v, r, ht, hne, hr, rfl⟩ |
    ⟨hocc, rfl⟩
  · obtain ⟨rfl, hvw⟩ := subst_opening_eq_var ht
    exact Spends.of_opening_field hw hlw hl
      (Ty.uses_var.2 (mem_erase.2 ⟨hvw, Ty.uses_var.1 hf⟩)) hd (fun y τ h => by cases h) rfl
  · obtain ⟨rfl, hvw⟩ := subst_opening_eq_var ht
    refine Spends.of_opening_var hw hlw hl hH (Ty.uses_var.1 hf) hvw ?_ (by simp)
      (fun y τ h => (OrderedMap.get?_singleton_eq_some h).2)
      ((Subst.app_singleton ..).trans (if_neg hne.symm))
    rw [weight_free hv, weight_free (cfg.typeVar_constraint _)]
  · obtain ⟨rfl, hvw⟩ := subst_opening_eq_var ht
    refine Spends.of_opening_var hw hlw hl hH (Ty.uses_var.1 hf) hvw
      (weight_le_weight hr fun l hl => OrdSet.mem_union.2 (.inl hl)) ?_ (fun y τ h => ?_) ?_
    · refine OrderedMap.mem_keys_iff.2 ⟨.var r, ?_⟩
      rw [OrderedMap.get?_insert, OrderedMap.get?_singleton, if_pos rfl, ite_self]
    · rw [OrderedMap.get?_insert] at h
      split at h
      · exact (Option.some.inj h).symm
      · exact (OrderedMap.get?_singleton_eq_some h).2
    · exact Subst.app_of_get? ((OrderedMap.get?_insert ..).trans (if_pos rfl))
  · -- The new field type does not occur in the opened field, so the row's end did not either.
    have hwf : w ∉ field.freeVars := fun h => hocc (Ty.mem_freeVars_subst.2 ⟨w, h, by
      rw [Config.opening, Subst.app_singleton, if_pos rfl]
      simp⟩)
    have hfield : field.subst (cfg.opening n w label) = field := Ty.subst_singleton_eq_self hwf
    rw [hfield]
    refine Spends.of_opening_field hw hlw hl (hf.mono fun v hv => ?_) hd
      (fun y τ h => OrderedMap.get?_singleton_eq_some h)
      ((Subst.app_singleton ..).trans (if_pos rfl))
    exact mem_erase.2 ⟨fun he => hwf (he ▸ hv), hf.vars v hv⟩

end Opening

/-- What is left of an opened row keeps within the stock. -/
theorem Spends.opened_rest {V' : Finset TyVar} {k : Nat} {s : Subst} (hs : Spends M V H s V' k)
    {pre : List (String × Ty)} {w β : TyVar} (h : (Ty.extendRow pre (.var w)).Uses M V)
    (hd : (Ty.extendRow pre (.var w)).depth < H) (hβ : (s.app β).Uses M V') :
    ((Ty.extendRow pre (.var β)).subst s).Uses M V' ∧
      ((Ty.extendRow pre (.var β)).subst s).depth < 2 ^ k * H := by
  rw [Ty.uses_extendRow] at h
  have hrest : (Ty.extendRow pre (.var β)).Uses M (insert β V) := by
    refine Ty.uses_extendRow.2 ⟨fun e he => ⟨(h.1 e he).1, (h.1 e he).2.mono fun v hv => ?_⟩,
      Ty.uses_var.2 (mem_insert_self ..)⟩
    exact mem_insert_of_mem ((h.1 e he).2.vars v hv)
  refine ⟨hrest.subst fun v hv => ?_, hs.depth_subst_lt ?_⟩
  · rcases (Ty.mem_freeVars_extendRow pre).1 hv with ⟨e, he, hv⟩ | hv
    · exact hs.app_uses ((h.1 e he).2.vars v hv)
    · rw [Ty.mem_freeVars_var.1 hv]
      exact hβ
  · have hle : (Ty.extendRow pre (.var β)).depth ≤ (Ty.extendRow pre (.var w)).depth :=
      Ty.depth_extendRow_mono pre (Nat.le_refl 0)
    exact hle.trans_lt hd

/-- Unifiers take their variables out of the stock. -/
theorem Unified.spends {t₁ t₂ : Ty} {vs : List TyVar} {s : Subst}
    (h : Unified cfg n t₁ t₂ vs s) (ho : Orderly cfg n t₁ t₂) (h₁ : t₁.Uses M V)
    (h₂ : t₂.Uses M V) (hd₁ : t₁.depth < H) (hd₂ : t₂.depth < H) :
    ∃ V' k, Spends M V H s V' k := by
  -- The second of two equations starts from the stock and the depth that the first one leaves.
  induction h generalizing V H with
  | typeVars hne =>
    exact ⟨_, _, .bind (Ty.uses_var.1 h₁) h₂ (by simpa using hne) hd₂⟩
  | rowVars hne => exact ⟨_, _, rowVars_spends hne (Ty.uses_var.1 h₁) (Ty.uses_var.1 h₂) rfl⟩
  | bindLeft _ hb => exact hb.spends (Ty.uses_var.1 h₁) h₂ hd₂
  | bindRight _ hb => exact hb.spends (Ty.uses_var.1 h₂) h₁ hd₁
  | fn hu₁ _ ih₁ ih₂ =>
    rw [Ty.uses_fn] at h₁ h₂
    simp only [Ty.depth] at hd₁ hd₂
    obtain ⟨V₁, k₁, hs₁⟩ := ih₁ (H := H) (ho.next .fnArg) h₁.1 h₂.1 (by omega) (by omega)
    obtain ⟨V₂, k₂, hs₂⟩ := ih₂ (ho.next (.fnRet hu₁)) (hs₁.uses_subst h₁.2) (hs₁.uses_subst h₂.2)
      (hs₁.depth_subst_lt (by omega)) (hs₁.depth_subst_lt (by omega))
    exact ⟨V₂, _, hs₁.compose hs₂⟩
  | record _ ih =>
    simp only [Ty.depth] at hd₁ hd₂
    exact ih (ho.next .record) (Ty.uses_record.1 h₁) (Ty.uses_record.1 h₂) (by omega) (by omega)
  | @rowFound n label field tail row f t pre _ _ _ _ _ _ hrow hl hu₁ _ ih₁ ih₂ =>
    subst hrow
    have hlast := Ty.depth_le_extendRow pre (.rowExtend label f t)
    have hrest : (Ty.extendRow pre t).depth ≤ (Ty.extendRow pre (.rowExtend label f t)).depth :=
      Ty.depth_extendRow_mono pre (by simp only [Ty.depth]; omega)
    rw [Ty.uses_rowExtend] at h₁
    rw [Ty.uses_extendRow, Ty.uses_rowExtend] at h₂
    simp only [Ty.depth] at hd₁ hlast
    obtain ⟨V₁, k₁, hs₁⟩ := ih₁ (H := H) (ho.next (.foundField hl)) h₁.2.1 h₂.2.2.1 (by omega)
      (by omega)
    obtain ⟨V₂, k₂, hs₂⟩ := ih₂ (ho.next (.foundTail hl hu₁)) (hs₁.uses_subst h₁.2.2)
      (hs₁.uses_subst (Ty.uses_extendRow.2 ⟨h₂.1, h₂.2.2.2⟩))
      (hs₁.depth_subst_lt (by omega)) (hs₁.depth_subst_lt (by omega))
    exact ⟨V₂, _, hs₁.compose hs₂⟩
  | rowOpened _ _ hrow _ hl hw _ hu₁ _ _ ih₂ =>
    subst hrow
    rw [Ty.uses_rowExtend] at h₁
    simp only [Ty.depth] at hd₁
    have hwV := Ty.uses_var.1 (Ty.uses_extendRow.1 h₂).2
    obtain ⟨V₁, hs₁, hβ⟩ := hu₁.opening_spends ho.end_ne hwV hw h₁.1 h₁.2.1 (H := H) (by omega)
    obtain ⟨hr, hrd⟩ := hs₁.opened_rest h₂ hd₂ hβ
    obtain ⟨V₂, k₂, hs₂⟩ := ih₂ (ho.next (.openedTail hl hw hu₁)) (hs₁.uses_subst h₁.2.2) hr
      (hs₁.depth_subst_lt (by omega)) hrd
    exact ⟨V₂, _, hs₁.compose hs₂⟩
  | _ => exact ⟨_, _, .empty M V H⟩

end Costs

/-! ## The bound -/

theorem two_mul_le_pow_succ (W H : Nat) : 2 * H ≤ 2 ^ (W + 1) * H :=
  Nat.mul_le_mul_right H (Nat.le_self_pow (Nat.succ_ne_zero W) 2)

/-- One call inside another, behind a unifier that cost `k`. -/
theorem depth_step {d e e' H k W W' : Nat}
    (hd : d + 2 * (2 ^ k * H) ≤ e' + 2 ^ (W' + 1) * (2 ^ k * H))
    (he : e' + H + 1 ≤ e + 2 ^ k * H) (hW : W' + k ≤ W) :
    d + 1 + 2 * H ≤ e + 2 ^ (W + 1) * H := by
  have hpow : 2 ^ (W' + 1) * (2 ^ k * H) ≤ 2 ^ (W + 1) * H := by
    rw [← Nat.mul_assoc, ← pow_add]
    exact Nat.mul_le_mul_right H (Nat.pow_le_pow_right Nat.two_pos (by omega))
  have hH : H ≤ 2 ^ k * H := Nat.le_mul_of_pos_left H (Nat.two_pow_pos k)
  omega

theorem BindRefused.ne_outOfFuel {u : TyVar} {t : Ty} {f : Fault} (h : BindRefused u t f) :
    f ≠ .outOfFuel := by
  cases h with
  | @improper d => cases d <;> exact fun hf => by cases hf
  | _ => exact fun hf => by cases hf

theorem ExposeRefused.ne_outOfFuel {row : Ty} {label : String} {f : Fault}
    (h : ExposeRefused row label f) : f ≠ .outOfFuel := by
  cases h <;> exact fun hf => by cases hf

/-- Nothing lies deep between a type and a variable. -/
theorem Refused.depth_var_right {cfg : Config} {d n : Nat} {t : Ty} {v : TyVar} {vs : List TyVar}
    (h : Refused cfg d n t (.var v) vs .outOfFuel) : d = 0 := by
  generalize ht : Ty.var v = t₂ at h
  generalize hf : Fault.outOfFuel = f at h
  cases h with
  | tooDeep => rfl
  | clash => cases hf
  | bindLeft _ hb => exact absurd hf.symm hb.ne_outOfFuel
  | bindRight _ hb => exact absurd hf.symm hb.ne_outOfFuel
  | @rowImproper _ _ _ _ _ _ b => cases b <;> cases hf
  | rowExpose _ _ _ he => exact absurd hf.symm he.ne_outOfFuel
  | rowShared => cases hf
  | @foundField _ _ _ _ _ _ _ _ pre _ _ _ _ hrow => subst ht; cases pre <;> cases hrow
  | @foundTail _ _ _ _ _ _ _ _ pre _ _ _ _ _ _ hrow => subst ht; cases pre <;> cases hrow
  | @openedField _ _ _ _ _ _ pre _ _ _ _ _ hrow hpre =>
    subst ht
    cases pre with
    | nil => exact absurd rfl hpre
    | cons => cases hrow
  | @openedTail _ _ _ _ _ _ pre _ _ _ _ _ _ _ hrow hpre =>
    subst ht
    cases pre with
    | nil => exact absurd rfl hpre
    | cons => cases hrow
  | _ => cases ht

/-- A run that goes `d` calls deep starts from deep types or from a heavy stock. -/
theorem Refused.depth_le {cfg : Config} {M : Finset String} {V : Finset TyVar} {d n H : Nat}
    {t₁ t₂ : Ty} {vs : List TyVar} {f : Fault} (h : Refused cfg d n t₁ t₂ vs f)
    (hf : f = .outOfFuel) (ho : Orderly cfg n t₁ t₂) (h₁ : t₁.Uses M V) (h₂ : t₂.Uses M V)
    (hd₁ : t₁.depth < H) (hd₂ : t₂.depth < H) :
    d + 2 * H ≤ t₁.depth + 2 ^ (stock M V + 1) * H := by
  induction h generalizing V H with
  | tooDeep =>
    have hpow := two_mul_le_pow_succ (stock M V) H
    omega
  | clash => cases hf
  | bindLeft _ hb => exact absurd hf hb.ne_outOfFuel
  | bindRight _ hb => exact absurd hf hb.ne_outOfFuel
  | fnArg _ ih =>
    rw [Ty.uses_fn] at h₁ h₂
    simp only [Ty.depth] at hd₁ hd₂ ⊢
    have := ih (H := H) hf (ho.next .fnArg) h₁.1 h₂.1 (by omega) (by omega)
    omega
  | @fnRet _ _ _ _ r₁ _ _ _ _ _ hu _ ih =>
    rw [Ty.uses_fn] at h₁ h₂
    simp only [Ty.depth] at hd₁ hd₂ ⊢
    obtain ⟨V₁, k₁, hs⟩ := hu.spends (H := H) (ho.next .fnArg) h₁.1 h₂.1 (by omega) (by omega)
    have hr := ih hf (ho.next (.fnRet hu)) (hs.uses_subst h₁.2) (hs.uses_subst h₂.2)
      (hs.depth_subst_lt (by omega)) (hs.depth_subst_lt (by omega))
    have hgrow := hs.depth_subst r₁
    exact depth_step hr (by omega) hs.lighter
  | record _ ih =>
    simp only [Ty.depth] at hd₁ hd₂ ⊢
    have := ih (H := H) hf (ho.next .record) (Ty.uses_record.1 h₁) (Ty.uses_record.1 h₂) (by omega)
      (by omega)
    omega
  | @rowImproper _ _ _ _ _ _ b => cases b <;> cases hf
  | rowExpose _ _ _ he => exact absurd hf he.ne_outOfFuel
  | rowShared => cases hf
  | @foundField _ _ label _ _ _ f t pre _ _ _ _ hrow hl _ ih =>
    subst hrow
    have hlast := Ty.depth_le_extendRow pre (.rowExtend label f t)
    rw [Ty.uses_rowExtend] at h₁
    rw [Ty.uses_extendRow, Ty.uses_rowExtend] at h₂
    simp only [Ty.depth] at hd₁ hlast ⊢
    have := ih (H := H) hf (ho.next (.foundField hl)) h₁.2.1 h₂.2.2.1 (by omega) (by omega)
    omega
  | @foundTail _ _ label _ tail _ f t pre _ _ _ _ _ _ hrow hl hu _ ih =>
    subst hrow
    have hlast := Ty.depth_le_extendRow pre (.rowExtend label f t)
    have hrest : (Ty.extendRow pre t).depth ≤ (Ty.extendRow pre (.rowExtend label f t)).depth :=
      Ty.depth_extendRow_mono pre (by simp only [Ty.depth]; omega)
    rw [Ty.uses_rowExtend] at h₁
    rw [Ty.uses_extendRow, Ty.uses_rowExtend] at h₂
    simp only [Ty.depth] at hd₁ hlast ⊢
    obtain ⟨V₁, k₁, hs⟩ := hu.spends (H := H) (ho.next (.foundField hl)) h₁.2.1 h₂.2.2.1 (by omega)
      (by omega)
    have hr := ih hf (ho.next (.foundTail hl hu)) (hs.uses_subst h₁.2.2)
      (hs.uses_subst (Ty.uses_extendRow.2 ⟨h₂.1, h₂.2.2.2⟩))
      (hs.depth_subst_lt (by omega)) (hs.depth_subst_lt (by omega))
    have hgrow := hs.depth_subst tail
    exact depth_step hr (by omega) hs.lighter
  | @openedField _ n label _ _ _ _ w _ _ _ _ hrow _ _ _ _ hr _ =>
    subst hrow
    have hγ : (Ty.var (cfg.typeVar (n + 1))).subst (cfg.opening n w label) =
        .var (cfg.typeVar (n + 1)) :=
      (Subst.app_singleton ..).trans (if_neg ho.end_ne.symm)
    rw [hγ, hf] at hr
    have hpow := two_mul_le_pow_succ (stock M V) H
    rw [hr.depth_var_right]
    simp only [Ty.depth]
    omega
  | @openedTail _ _ _ _ tail _ _ _ _ _ _ _ _ _ hrow _ hl hw _ hu _ ih =>
    subst hrow
    rw [Ty.uses_rowExtend] at h₁
    simp only [Ty.depth] at hd₁ ⊢
    have hwV := Ty.uses_var.1 (Ty.uses_extendRow.1 h₂).2
    obtain ⟨V₁, hs, hβ⟩ := hu.opening_spends (H := H) ho.end_ne hwV hw h₁.1 h₁.2.1 (by omega)
    obtain ⟨hr, hrd⟩ := hs.opened_rest h₂ hd₂ hβ
    have hle := ih hf (ho.next (.openedTail hl hw hu)) (hs.uses_subst h₁.2.2) hr
      (hs.depth_subst_lt (by omega)) hrd
    have hgrow := hs.depth_subst tail
    exact depth_step hle (by omega) hs.lighter

/-- The depth that is computed from the two types suffices. -/
theorem Refused.ne_outOfFuel {cfg : Config} {n : Nat} {t₁ t₂ : Ty} {vs : List TyVar} {f : Fault}
    (h : Refused cfg (unifyDepth t₁ t₂) n t₁ t₂ vs f) (ho : Orderly cfg n t₁ t₂) :
    f ≠ .outOfFuel := by
  intro hf
  let M := (t₁.fieldLabels ∪ t₂.fieldLabels).toList.toFinset
  let V := (t₁.freeVars ∪ t₂.freeVars).toList.toFinset
  have h₁ : t₁.Uses M V :=
    ⟨fun l hl => List.mem_toFinset.2 (OrdSet.mem_union.2 (.inl hl)),
      fun v hv => List.mem_toFinset.2 (OrdSet.mem_union.2 (.inl hv))⟩
  have h₂ : t₂.Uses M V :=
    ⟨fun l hl => List.mem_toFinset.2 (OrdSet.mem_union.2 (.inr hl)),
      fun v hv => List.mem_toFinset.2 (OrdSet.mem_union.2 (.inr hv))⟩
  have hs₁ := t₁.depth_lt_size
  have hs₂ := t₂.depth_lt_size
  have hle := h.depth_le (H := t₁.size + t₂.size) hf ho h₁ h₂ (by omega) (by omega)
  have hM : #M ≤ (t₁.fieldLabels ∪ t₂.fieldLabels).size := List.toFinset_card_le _
  have hV : #V ≤ (t₁.freeVars ∪ t₂.freeVars).size := List.toFinset_card_le _
  have hstock : stock M V + 1 ≤
      ((t₁.freeVars ∪ t₂.freeVars).size + 1) * ((t₁.fieldLabels ∪ t₂.fieldLabels).size + 2) := by
    have hsum : stock M V ≤ #V * (#M + 2) :=
      sum_le_card_nsmul V _ (#M + 2) fun v _ => weight_le M v
    have hmul : #V * (#M + 2) ≤
        (t₁.freeVars ∪ t₂.freeVars).size * ((t₁.fieldLabels ∪ t₂.fieldLabels).size + 2) :=
      Nat.mul_le_mul hV (by omega)
    rw [Nat.add_mul]
    omega
  have hpow := Nat.mul_le_mul_right (t₁.size + t₂.size)
    (Nat.pow_le_pow_right Nat.two_pos hstock)
  rw [unifyDepth, Nat.succ_mul, Nat.mul_comm (t₁.size + t₂.size)] at hle
  change 2 ^ _ * (t₁.size + t₂.size) + 2 ^ _ + _ ≤ _ at hle
  generalize 2 ^ (((t₁.freeVars ∪ t₂.freeVars).size + 1) *
    ((t₁.fieldLabels ∪ t₂.fieldLabels).size + 2)) = E at hle hpow
  omega

end RowTyping
