import Mathlib.Data.List.Nodup
import Mathlib.Logic.Equiv.Basic
import RowTyping.Error
import RowTyping.Proofs.Substitution
import RowTyping.Ty.Row

/-!
# Renaming type variables

A `Renaming` permutes the type variables and leaves their constraints alone. It acts on types, on
what is made of types (rows, substitutions, errors and faults), and on all of them in the same way.
Every operation of the library on types commutes with this action, because no operation looks at the
name of a variable; the lemmas say so one operation at a time. Where the entries of one substitution
are renamings of the entries of another, so is what the two do to a type (`Ty.subst_rename_of_app`).
-/

namespace RowTyping

/-- A permutation of the type variables that keeps their constraints. -/
structure Renaming where
  perm : Equiv.Perm TyVar
  constraint (v : TyVar) : (perm v).constraint = v.constraint

namespace Renaming

instance : CoeFun Renaming fun _ => TyVar → TyVar := ⟨fun ρ => ρ.perm⟩

/-- Every variable keeps its name. -/
protected def refl : Renaming := ⟨Equiv.refl _, fun _ => rfl⟩

/-- Exchanges two variables that have one constraint. -/
def swap (u w : TyVar) (h : w.constraint = u.constraint) : Renaming where
  perm := Equiv.swap u w
  constraint v := by
    rw [Equiv.swap_apply_def]
    split
    · next hv => rw [hv, h]
    · split
      · next hv => rw [hv, h]
      · rfl

variable (ρ : Renaming)

@[simp] theorem apply_inj {u v : TyVar} : ρ u = ρ v ↔ u = v := ρ.perm.injective.eq_iff

@[simp] theorem constraint_apply (v : TyVar) : (ρ v).constraint = v.constraint := ρ.constraint v

@[simp] theorem labels_apply (v : TyVar) : (ρ v).labels = v.labels :=
  congrArg Constraint.labels (ρ.constraint v)

theorem apply_mem_of_perm {us us' : List TyVar} (h : us'.Perm (us.map ρ)) {v : TyVar} :
    ρ v ∈ us' ↔ v ∈ us := by
  rw [h.mem_iff, List.mem_map]
  simp

/-- Renamed variables come in another order when they are listed by name. -/
theorem perm_toList {vs vs' : TyVars} (h : ∀ v, v ∈ vs' ↔ ∃ u ∈ vs, ρ u = v) :
    vs'.toList.Perm (vs.toList.map ρ) := by
  have hnodup := (OrdSet.nodup_of_sorted vs.sorted).map ρ.perm.injective
  rw [List.perm_ext_iff_of_nodup (OrdSet.nodup_of_sorted vs'.sorted) hnodup]
  intro v
  rw [OrdSet.mem_toList, h v, List.mem_map]
  rfl

end Renaming

/-! ## Types -/

namespace Ty

/-- Renames the variables of a type. -/
def rename (ρ : Renaming) : Ty → Ty
  | var v => var (ρ v)
  | int => int
  | bool => bool
  | fn a r => fn (a.rename ρ) (r.rename ρ)
  | record r => record (r.rename ρ)
  | rowEmpty => rowEmpty
  | rowExtend l f t => rowExtend l (f.rename ρ) (t.rename ρ)

variable {ρ ρ' : Renaming}

theorem mem_freeVars_rename {t : Ty} {v : TyVar} :
    v ∈ (t.rename ρ).freeVars ↔ ∃ u ∈ t.freeVars, ρ u = v := by
  induction t with
  | var w => simp [rename, eq_comm]
  | int => simp [rename]
  | bool => simp [rename]
  | rowEmpty => simp [rename]
  | record r ih => simpa [rename] using ih
  | fn a r iha ihr => simp [rename, iha, ihr, or_and_right, exists_or]
  | rowExtend l f t ihf iht => simp [rename, ihf, iht, or_and_right, exists_or]

@[simp] theorem apply_mem_freeVars_rename {t : Ty} {v : TyVar} :
    ρ v ∈ (t.rename ρ).freeVars ↔ v ∈ t.freeVars := by
  simp [mem_freeVars_rename]

theorem rename_congr {t : Ty} (h : ∀ v ∈ t.freeVars, ρ v = ρ' v) : t.rename ρ = t.rename ρ' := by
  induction t with
  | var w => exact congrArg var (h w (by simp))
  | int => rfl
  | bool => rfl
  | rowEmpty => rfl
  | record r ih => exact congrArg record (ih h)
  | fn a r iha ihr =>
    simp only [mem_freeVars_fn] at h
    simp only [rename]
    rw [iha fun v hv => h v (.inl hv), ihr fun v hv => h v (.inr hv)]
  | rowExtend l f t ihf iht =>
    simp only [mem_freeVars_rowExtend] at h
    simp only [rename]
    rw [ihf fun v hv => h v (.inl hv), iht fun v hv => h v (.inr hv)]

theorem rename_refl (t : Ty) : t.rename .refl = t := by
  induction t <;> simp_all [rename, Renaming.refl]

/-- Two substitutions that give corresponding variables corresponding types turn corresponding types
into corresponding types. -/
theorem subst_rename_of_app {s s' : Subst} {t : Ty}
    (h : ∀ v ∈ t.freeVars, s'.app (ρ v) = (s.app v).rename ρ') :
    (t.rename ρ).subst s' = (t.subst s).rename ρ' := by
  induction t with
  | var w => exact h w (by simp)
  | int => rfl
  | bool => rfl
  | rowEmpty => rfl
  | record r ih => exact congrArg record (ih h)
  | fn a r iha ihr =>
    simp only [mem_freeVars_fn] at h
    simp only [rename, subst]
    rw [iha fun v hv => h v (.inl hv), ihr fun v hv => h v (.inr hv)]
  | rowExtend l f t ihf iht =>
    simp only [mem_freeVars_rowExtend] at h
    simp only [rename, subst]
    rw [ihf fun v hv => h v (.inl hv), iht fun v hv => h v (.inr hv)]

/-- A substitution that gives each variable its new name renames a type. -/
theorem subst_eq_rename {s : Subst} {t : Ty} (h : ∀ v ∈ t.freeVars, s.app v = var (ρ v)) :
    t.subst s = t.rename ρ := by
  have hsubst : (t.rename .refl).subst s = (t.subst .empty).rename ρ := subst_rename_of_app h
  rwa [rename_refl, subst_empty] at hsubst

@[simp] theorem size_rename (t : Ty) : (t.rename ρ).size = t.size := by
  induction t <;> simp_all [rename, size]

@[simp] theorem fieldLabels_rename (t : Ty) : (t.rename ρ).fieldLabels = t.fieldLabels := by
  induction t <;> simp_all [rename, fieldLabels]

@[simp] theorem isRow_rename (t : Ty) : (t.rename ρ).isRow = t.isRow := by
  cases t <;> rfl

theorem rowEnd_rename (t : Ty) : (t.rename ρ).rowEnd = t.rowEnd.rename ρ := by
  induction t with
  | rowExtend l f t _ iht => exact iht
  | _ => rfl

theorem rowEndVar?_rename (t : Ty) : (t.rename ρ).rowEndVar? = t.rowEndVar?.map ρ := by
  unfold rowEndVar?
  rw [rowEnd_rename]
  cases t.rowEnd <;> rfl

end Ty

/-! ## Rows -/

/-- Renames the variables of a row. -/
def Row.rename (ρ : Renaming) (r : Row) : Row :=
  ⟨r.fields.map fun e => (e.1, e.2.rename ρ), r.tail.map ρ⟩

@[simp] theorem Row.labels_rename (ρ : Renaming) (r : Row) : (r.rename ρ).labels = r.labels := by
  simp [labels, rename, Function.comp_def]

/-- Renames the variables of a defect. -/
def RowDefect.rename (ρ : Renaming) : RowDefect → RowDefect
  | repeated l => repeated l
  | badEnd t => badEnd (t.rename ρ)

theorem Ty.decomposeAvoiding_rename (ρ : Renaming) (t : Ty) (seen : Labels) :
    (t.rename ρ).decomposeAvoiding seen =
      ((t.decomposeAvoiding seen).map (Row.rename ρ)).mapError (RowDefect.rename ρ) := by
  induction t generalizing seen with
  | rowExtend l f t _ iht =>
    simp only [rename, decomposeAvoiding, iht]
    split
    · rfl
    · cases t.decomposeAvoiding (seen.insert l) <;> rfl
  | _ => rfl

theorem Ty.decompose_rename (ρ : Renaming) (t : Ty) :
    (t.rename ρ).decompose = (t.decompose.map (Row.rename ρ)).mapError (RowDefect.rename ρ) :=
  t.decomposeAvoiding_rename ρ .empty

/-! ## Substitutions -/

namespace Subst

/-- Renames the variables of a substitution, on both sides of its entries. -/
def rename (ρ : Renaming) (s : Subst) : Subst where
  entries := s.entries.map fun e => (ρ e.1, e.2.rename ρ)
  nodup := by
    have h := s.nodup.map ρ.perm.injective
    simpa [Function.comp_def] using h

variable (ρ : Renaming)

theorem keys_rename (s : Subst) : (s.rename ρ).keys = s.keys.map ρ := by
  simp [OrderedMap.keys, rename, Function.comp_def]

@[simp] theorem apply_mem_keys_rename {s : Subst} {v : TyVar} :
    ρ v ∈ (s.rename ρ).keys ↔ v ∈ s.keys := by
  simp [keys_rename]

@[simp] theorem contains_rename (s : Subst) (v : TyVar) :
    (s.rename ρ).contains (ρ v) = s.contains v := by
  simp [OrderedMap.contains]

theorem get?_rename (s : Subst) (v : TyVar) :
    (s.rename ρ).get? (ρ v) = (s.get? v).map (Ty.rename ρ) := by
  cases h : s.get? v with
  | none =>
    rw [Option.map_none, OrderedMap.get?_eq_none_iff, apply_mem_keys_rename]
    exact OrderedMap.get?_eq_none_iff.1 h
  | some t =>
    rw [Option.map_some, ← OrderedMap.mem_entries_iff]
    exact List.mem_map.2 ⟨(v, t), OrderedMap.mem_entries_iff.2 h, rfl⟩

theorem app_rename (s : Subst) (v : TyVar) : (s.rename ρ).app (ρ v) = (s.app v).rename ρ := by
  rw [app, app, get?_rename]
  cases s.get? v <;> rfl

theorem rename_insert (s : Subst) (v : TyVar) (t : Ty) :
    rename ρ (s.insert v t) = (s.rename ρ).insert (ρ v) (t.rename ρ) := by
  apply OrderedMap.ext
  have h : ∀ l : List (TyVar × Ty),
      (OrderedMap.insertEntry v t l).map (fun e => (ρ e.1, e.2.rename ρ)) =
        OrderedMap.insertEntry (ρ v) (t.rename ρ) (l.map fun e => (ρ e.1, e.2.rename ρ)) := by
    intro l
    induction l with
    | nil => rfl
    | cons e l ih =>
      by_cases he : e.1 = v
      · simp [OrderedMap.insertEntry, he]
      · simp [OrderedMap.insertEntry, he, ih]
  exact h s.entries

end Subst

@[simp] theorem Ty.rename_subst (ρ : Renaming) (t : Ty) (s : Subst) :
    (t.subst s).rename ρ = (t.rename ρ).subst (s.rename ρ) :=
  (subst_rename_of_app fun v _ => s.app_rename ρ v).symm

theorem Subst.rename_compose (ρ : Renaming) (newer older : Subst) :
    rename ρ (newer.compose older) = (newer.rename ρ).compose (older.rename ρ) := by
  have hmap : rename ρ (older.map (Ty.subst newer)) =
      (older.rename ρ).map (Ty.subst (newer.rename ρ)) := by
    apply OrderedMap.ext
    simp [rename, OrderedMap.map, Function.comp_def]
  have hall : ∀ (l : List (TyVar × Ty)) (s : Subst),
      rename ρ (s.insertAll l) = (s.rename ρ).insertAll (l.map fun e => (ρ e.1, e.2.rename ρ)) := by
    intro l
    induction l with
    | nil => exact fun s => rfl
    | cons e l ih =>
      intro s
      rw [OrderedMap.insertAll_cons, ih, rename_insert]
      rfl
  unfold compose
  rw [hall, hmap]
  rfl

/-! ## Errors -/

/-- Renames the variables that an error speaks of. -/
def InferError.rename (ρ : Renaming) : InferError → InferError
  | unboundVariable x => unboundVariable x
  | mismatch t₁ t₂ => mismatch (t₁.rename ρ) (t₂.rename ρ)
  | occurs v t => occurs (ρ v) (t.rename ρ)
  | duplicateLabels ls => duplicateLabels ls
  | labelNotFound l => labelNotFound l
  | recursiveRow v => recursiveRow (ρ v)
  | other m => other m

/-- Renames the variables that a fault speaks of. -/
def Fault.rename (ρ : Renaming) : Fault → Fault
  | infer e => infer (e.rename ρ)
  | notARow op t => notARow op (t.rename ρ)
  | unknownExpr => unknownExpr
  | unknownPrim => unknownPrim
  | noOutcome => noOutcome
  | outOfFuel => outOfFuel

/-- Renames the variables of a type, or those of the fault that stands in its place. -/
def Renaming.result (ρ : Renaming) : Except Fault Ty → Except Fault Ty
  | .ok t => .ok (t.rename ρ)
  | .error f => .error (f.rename ρ)

end RowTyping
