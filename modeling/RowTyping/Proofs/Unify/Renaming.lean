import RowTyping.Proofs.Renaming
import RowTyping.Proofs.Twins
import RowTyping.Unify

/-!
# Unification does not depend on names

Run unification once on two types and once on renamings of them, with other stems and after another
number of variables. If the renaming also takes the variables that the first run may still issue to
those of the second (`Renaming.Shifts`), then the second run is the first one renamed: it issues the
renamed variables, and its result or fault is the renamed result or fault (`unify_mirrors`).

`Mirrors` says this of two computations; it is kept by sequencing, so that each function of the
algorithm needs only its own cases.
-/

namespace RowTyping

open InferM

/-- The variable with a given constraint that unification issues after `n` others. -/
def Config.own (cfg : Config) : Constraint → Nat → TyVar
  | .free, n => cfg.typeVar n
  | .lacks ls, n => cfg.rowVar n ls

/-- The renaming takes the variables that one run issues from now on to those of another run. -/
def Renaming.Shifts (ρ : Renaming) (cfg : Config) (n : Nat) (cfg' : Config) (n' : Nat) : Prop :=
  ∀ c k, ρ (cfg.own c (n + k)) = cfg'.own c (n' + k)

theorem Renaming.Shifts.skip {ρ : Renaming} {cfg cfg' : Config} {n n' : Nat}
    (h : ρ.Shifts cfg n cfg' n') (k : Nat) : ρ.Shifts cfg (n + k) cfg' (n' + k) := by
  intro c j
  rw [Nat.add_assoc, Nat.add_assoc]
  exact h c (k + j)

/-- The second computation is the first one renamed. -/
def Mirrors (ρ : Renaming) (cfg cfg' : Config) {α β : Type} (x : InferM α) (x' : InferM β)
    (g : α → β) : Prop :=
  ∀ n n', ρ.Shifts cfg n cfg' n' →
    Twins cfg n x cfg' n' x' (fun vs vs' a b => vs' = vs.map ρ ∧ b = g a)
      fun vs vs' f f' => vs' = vs.map ρ ∧ f' = f.rename ρ

namespace Mirrors

variable {ρ : Renaming} {cfg cfg' : Config} {α β γ δ : Type} {g : α → β}

theorem pure {a : α} {b : β} (h : b = g a) : Mirrors ρ cfg cfg' (pure a) (pure b) g :=
  fun _ _ _ => .pure ⟨rfl, h⟩

theorem throw {f f' : Fault} (h : f' = f.rename ρ) : Mirrors ρ cfg cfg' (throw f) (throw f') g :=
  fun _ _ _ => .throw ⟨rfl, h⟩

theorem fail {e e' : InferError} (h : e' = e.rename ρ) : Mirrors ρ cfg cfg' (fail e) (fail e') g :=
  fun _ _ _ => .fail ⟨rfl, congrArg Fault.infer h⟩

theorem freshType : Mirrors ρ cfg cfg' freshType freshType ρ := by
  intro n n' hρ
  have hv : ρ (cfg.typeVar n) = cfg'.typeVar n' := hρ .free 0
  apply Twins.freshType
  simp [hv]

theorem freshRow (ls : Labels) : Mirrors ρ cfg cfg' (freshRow ls) (freshRow ls) ρ := by
  intro n n' hρ
  have hv : ρ (cfg.rowVar n ls) = cfg'.rowVar n' ls := hρ (.lacks ls) 0
  apply Twins.freshRow
  simp [hv]

theorem trace_bind {e e' : TraceEvent} (he : e.freshVar? = none) (he' : e'.freshVar? = none)
    {x : InferM α} {x' : InferM β} (h : Mirrors ρ cfg cfg' x x' g) :
    Mirrors ρ cfg cfg' (trace e >>= fun _ => x) (trace e' >>= fun _ => x') g :=
  fun n n' hρ => (h n n' hρ).trace_bind he he'

theorem bind {x : InferM α} {x' : InferM β} {k : α → InferM γ} {k' : β → InferM δ} {h : γ → δ}
    (hx : Mirrors ρ cfg cfg' x x' g) (hk : ∀ a, Mirrors ρ cfg cfg' (k a) (k' (g a)) h) :
    Mirrors ρ cfg cfg' (x >>= k) (x' >>= k') h := by
  intro n n' hρ
  refine (hx n n' hρ).bind ?_ fun _ _ _ _ hf => hf
  rintro vs _ a _ ⟨rfl, rfl⟩
  have hshift : ρ.Shifts cfg (n + vs.length) cfg' (n' + (vs.map ρ).length) := by
    rw [List.length_map]
    exact hρ.skip vs.length
  refine (hk a _ _ hshift).mono ?_ ?_
  · rintro ws _ c _ ⟨rfl, rfl⟩
    exact ⟨List.map_append.symm, rfl⟩
  · rintro ws _ f _ ⟨rfl, rfl⟩
    exact ⟨List.map_append.symm, rfl⟩

end Mirrors

variable {ρ : Renaming} {cfg cfg' : Config}

theorem properRow_mirrors (t : Ty) :
    Mirrors ρ cfg cfg' (properRow t) (properRow (t.rename ρ)) (Row.rename ρ) := by
  unfold properRow
  rw [t.decompose_rename ρ]
  cases t.decompose with
  | ok r => exact .pure rfl
  | error d =>
    cases d with
    | repeated l => exact .fail rfl
    | badEnd e => exact .throw rfl

theorem mergeVars_mirrors (u v : TyVar) :
    Mirrors ρ cfg cfg' (mergeVars u v) (mergeVars (ρ u) (ρ v)) (Subst.rename ρ) := by
  unfold mergeVars
  simp only [ρ.apply_inj, ρ.constraint_apply, ρ.labels_apply]
  split
  · exact .pure rfl
  · split
    · exact .pure rfl
    · refine .bind (.freshRow _) fun r => ?_
      exact .pure (Subst.rename_insert ρ (.singleton u (.var r)) v (.var r)).symm

theorem bindRow_mirrors (ls : Labels) (u : TyVar) (t : Ty) :
    Mirrors ρ cfg cfg' (bindRow ls u t) (bindRow ls (ρ u) (t.rename ρ)) (Subst.rename ρ) := by
  unfold bindRow
  rw [Ty.isRow_rename]
  split
  · exact .fail rfl
  · refine (properRow_mirrors t).bind fun row => ?_
    simp only [Row.labels_rename]
    split
    · exact .fail rfl
    · obtain ⟨fields, tail⟩ := row
      cases tail with
      | none => exact .pure rfl
      | some w =>
        show Mirrors ρ cfg cfg' _ (freshRow (ls ∪ (ρ w).labels) >>= _) _
        rw [ρ.labels_apply]
        refine .bind (.freshRow _) fun r => ?_
        exact .pure (Subst.rename_compose ρ (.singleton w (.var r)) (.singleton u t)).symm

theorem bindVar_mirrors (u : TyVar) (t : Ty) :
    Mirrors ρ cfg cfg' (bindVar u t) (bindVar (ρ u) (t.rename ρ)) (Subst.rename ρ) := by
  unfold bindVar
  simp only [Ty.apply_mem_freeVars_rename, ρ.constraint_apply]
  split
  · exact .fail rfl
  · cases u.constraint with
    | free => exact .pure rfl
    | lacks ls => exact bindRow_mirrors ls u t

/-- Renames the variables of an exposed row. -/
def Exposed.rename (ρ : Renaming) (e : Exposed) : Exposed :=
  ⟨e.field.rename ρ, e.rest.rename ρ, e.subst.rename ρ⟩

theorem expose_mirrors (row : Ty) (label : String) :
    Mirrors ρ cfg cfg' (expose row label) (expose (row.rename ρ) label) (Exposed.rename ρ) := by
  induction row with
  | rowEmpty => exact .trace_bind rfl rfl (.fail rfl)
  | rowExtend other field tail _ ih =>
    refine .trace_bind rfl rfl ?_
    show Mirrors ρ cfg cfg' (if other = label then _ else _) (if other = label then _ else _) _
    split
    · exact .pure rfl
    · cases tail with
      | var w =>
        show Mirrors ρ cfg cfg' (if label ∈ w.labels then _ else _)
          (if label ∈ (ρ w).labels then _ else freshRow ((ρ w).labels ∪ _) >>= _) _
        rw [ρ.labels_apply]
        split
        · exact .fail rfl
        · exact .bind (.freshRow _) fun rest => .bind .freshType fun new => .pure rfl
      | _ => exact ih.bind fun r => .pure rfl
  | _ => exact .trace_bind rfl rfl (.throw rfl)

/-- A unifier for smaller types that does not depend on names. -/
abbrev MirrorsItself (ρ : Renaming) (cfg cfg' : Config) (unify : Ty → Ty → InferM Subst) : Prop :=
  ∀ t₁ t₂, Mirrors ρ cfg cfg' (unify t₁ t₂) (unify (t₁.rename ρ) (t₂.rename ρ)) (Subst.rename ρ)

theorem unifyRows_mirrors {unify : Ty → Ty → InferM Subst} (hu : MirrorsItself ρ cfg cfg' unify)
    (label : String) (field tail row : Ty) :
    Mirrors ρ cfg cfg' (unifyRows unify label field tail row)
      (unifyRows unify label (field.rename ρ) (tail.rename ρ) (row.rename ρ)) (Subst.rename ρ) := by
  unfold unifyRows
  refine (properRow_mirrors (.rowExtend label field tail)).bind fun row₁ => ?_
  refine (properRow_mirrors row).bind fun _ => ?_
  refine (expose_mirrors row label).bind fun e => ?_
  have hfind : ((row₁.rename ρ).tail.toList ++ (e.rename ρ).rest.rowEndVar?.toList).find?
        (e.rename ρ).subst.contains =
      ((row₁.tail.toList ++ e.rest.rowEndVar?.toList).find? e.subst.contains).map ρ := by
    have htail : (row₁.rename ρ).tail.toList ++ (e.rename ρ).rest.rowEndVar?.toList =
        (row₁.tail.toList ++ e.rest.rowEndVar?.toList).map ρ := by
      rw [Exposed.rename, Ty.rowEndVar?_rename, Row.rename]
      cases row₁.tail <;> cases e.rest.rowEndVar? <;> rfl
    rw [htail, List.find?_map]
    simp [Exposed.rename, Function.comp_def]
  simp only [hfind]
  cases (row₁.tail.toList ++ e.rest.rowEndVar?.toList).find? e.subst.contains with
  | some v => exact .fail rfl
  | none =>
    have h₁ := hu (field.subst e.subst) (e.field.subst e.subst)
    rw [Ty.rename_subst, Ty.rename_subst] at h₁
    refine h₁.bind fun s₁ => ?_
    have h₂ := hu (tail.subst (s₁.compose e.subst)) (e.rest.subst (s₁.compose e.subst))
    rw [Ty.rename_subst, Ty.rename_subst, Subst.rename_compose] at h₂
    refine h₂.bind fun s₂ => ?_
    apply Mirrors.pure
    rw [Subst.rename_compose, Subst.rename_compose]
    rfl

theorem unifyStep_mirrors {unify : Ty → Ty → InferM Subst} (hu : MirrorsItself ρ cfg cfg' unify) :
    MirrorsItself ρ cfg cfg' (unifyStep unify) := by
  intro t₁ t₂
  refine .trace_bind rfl rfl ?_
  cases t₁ with
  | var u =>
    cases t₂ with
    | var v => exact mergeVars_mirrors u v
    | _ => exact bindVar_mirrors u _
  | fn a₁ r₁ =>
    cases t₂ with
    | var v => exact bindVar_mirrors v _
    | fn a₂ r₂ =>
      refine (hu a₁ a₂).bind fun s₁ => ?_
      have h₂ := hu (r₁.subst s₁) (r₂.subst s₁)
      rw [Ty.rename_subst, Ty.rename_subst] at h₂
      refine h₂.bind fun s₂ => ?_
      exact .pure (Subst.rename_compose ρ s₂ s₁).symm
    | _ => exact .fail rfl
  | int =>
    cases t₂ with
    | var v => exact bindVar_mirrors v _
    | int => exact .pure rfl
    | _ => exact .fail rfl
  | bool =>
    cases t₂ with
    | var v => exact bindVar_mirrors v _
    | bool => exact .pure rfl
    | _ => exact .fail rfl
  | rowEmpty =>
    cases t₂ with
    | var v => exact bindVar_mirrors v _
    | rowEmpty => exact .pure rfl
    | _ => exact .fail rfl
  | record r₁ =>
    cases t₂ with
    | var v => exact bindVar_mirrors v _
    | record r₂ => exact hu r₁ r₂
    | _ => exact .fail rfl
  | rowExtend l f t =>
    cases t₂ with
    | var v => exact bindVar_mirrors v _
    | rowExtend l' f' t' => exact unifyRows_mirrors hu l f t (.rowExtend l' f' t')
    | rowEmpty => exact unifyRows_mirrors hu l f t .rowEmpty
    | _ => exact .fail rfl

theorem unifyWithin_mirrors (depth : Nat) : MirrorsItself ρ cfg cfg' (unifyWithin depth) := by
  induction depth with
  | zero => exact fun _ _ => .throw rfl
  | succ depth ih => exact unifyStep_mirrors ih

theorem unifyDepth_rename (ρ : Renaming) (t₁ t₂ : Ty) :
    unifyDepth (t₁.rename ρ) (t₂.rename ρ) = unifyDepth t₁ t₂ := by
  have hvars : ((t₁.rename ρ).freeVars ∪ (t₂.rename ρ).freeVars).size =
      (t₁.freeVars ∪ t₂.freeVars).size := by
    have hperm : List.Perm ((t₁.rename ρ).freeVars ∪ (t₂.rename ρ).freeVars).toList
        ((t₁.freeVars ∪ t₂.freeVars).toList.map ρ) := by
      refine ρ.perm_toList fun v => ?_
      simp only [OrdSet.mem_union, Ty.mem_freeVars_rename, or_and_right, exists_or]
    exact hperm.length_eq.trans (List.length_map ρ)
  unfold unifyDepth
  simp [hvars]

/-- Unification of renamed types is renamed unification. -/
theorem unify_mirrors (t₁ t₂ : Ty) :
    Mirrors ρ cfg cfg' (unify t₁ t₂) (unify (t₁.rename ρ) (t₂.rename ρ)) (Subst.rename ρ) := by
  unfold unify
  rw [unifyDepth_rename]
  exact unifyWithin_mirrors _ t₁ t₂

end RowTyping
