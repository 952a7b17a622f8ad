import RowTyping.Ty.Row
import RowTyping.Proofs.Substitution

/-!
# Types up to the order of their fields

`RowEquiv` identifies types that differ only in the order of differently labelled fields of a row,
at any depth. Fields with one label keep their order, so the relation makes sense for every type,
also for a row that repeats a label.

Every class has one representative with its rows sorted by label (`Ty.norm`), and two types are
equivalent exactly when they have the same one (`rowEquiv_iff`). More generally `t.eval φ` reads a
type with the value `φ v` for each variable `v` and sorts the rows on the way (`Ty.placeField`).
Reading a substituted type is reading the type with other values (`Ty.eval_subst`), so equations
between types up to the order of fields are plain equations between readings.
-/

namespace RowTyping

open Std

/-- Equality up to the order of differently labelled fields of a row, anywhere in the type. -/
inductive RowEquiv : Ty → Ty → Prop
  | refl (t : Ty) : RowEquiv t t
  | symm {t t' : Ty} : RowEquiv t t' → RowEquiv t' t
  | trans {t t' t'' : Ty} : RowEquiv t t' → RowEquiv t' t'' → RowEquiv t t''
  | fn {a a' r r' : Ty} : RowEquiv a a' → RowEquiv r r' → RowEquiv (.fn a r) (.fn a' r')
  | record {r r' : Ty} : RowEquiv r r' → RowEquiv (.record r) (.record r')
  | rowExtend {l : String} {f f' t t' : Ty} : RowEquiv f f' → RowEquiv t t' →
      RowEquiv (.rowExtend l f t) (.rowExtend l f' t')
  | swap {l l' : String} {f f' t : Ty} : l ≠ l' →
      RowEquiv (.rowExtend l f (.rowExtend l' f' t)) (.rowExtend l' f' (.rowExtend l f t))

namespace Ty

/-! ## Placing a field -/

/-- Puts a field into a row, behind the leading fields with smaller labels. -/
def placeField (l : String) (f : Ty) : Ty → Ty
  | rowExtend l' f' t =>
    if compare l' l = .lt then rowExtend l' f' (placeField l f t)
    else rowExtend l f (rowExtend l' f' t)
  | t => rowExtend l f t

/-- The labels along a chain of fields. -/
def rowLabels (t : Ty) : List String := t.rowFields.map Prod.fst

@[simp] theorem rowLabels_rowExtend (l : String) (f t : Ty) :
    (rowExtend l f t).rowLabels = l :: t.rowLabels := rfl

theorem placeField_behind {l l' : String} (h : compare l' l = .lt) (f f' t : Ty) :
    placeField l f (rowExtend l' f' t) = rowExtend l' f' (placeField l f t) := by
  simp [placeField, h]

theorem placeField_before {l l' : String} (h : ¬compare l' l = .lt) (f f' t : Ty) :
    placeField l f (rowExtend l' f' t) = rowExtend l f (rowExtend l' f' t) := by
  simp [placeField, h]

/-- The place of a field depends on the smaller labels only. -/
theorem placeField_comm_of_lt {l l' : String} (h : compare l l' = .lt) (f f' t : Ty) :
    placeField l f (placeField l' f' t) = placeField l' f' (placeField l f t) := by
  have hnot : ¬compare l' l = .lt := OrientedCmp.not_lt_of_lt h
  induction t with
  | rowExtend m g u _ ihu =>
    by_cases hm : compare m l = .lt
    · have hm' : compare m l' = .lt := TransCmp.lt_trans hm h
      rw [placeField_behind hm', placeField_behind hm, placeField_behind hm, placeField_behind hm',
        ihu]
    · rw [placeField_before hm, placeField_behind h]
      by_cases hm' : compare m l' = .lt
      · rw [placeField_behind hm', placeField_before hm]
      · rw [placeField_before hm', placeField_before hnot]
  | _ => simp [placeField, h, hnot]

theorem placeField_comm {l l' : String} (h : l ≠ l') (f f' t : Ty) :
    placeField l f (placeField l' f' t) = placeField l' f' (placeField l f t) := by
  cases hc : compare l l' with
  | lt => exact placeField_comm_of_lt hc f f' t
  | eq => exact absurd (LawfulEqOrd.eq_of_compare hc) h
  | gt => exact (placeField_comm_of_lt (OrientedCmp.lt_of_gt hc) f' f t).symm

/-- A row from which the placed field is taken out again is the row before. -/
theorem placeField_cancel {l : String} {f f' t t' : Ty}
    (h : placeField l f t = placeField l f' t') : f = f' ∧ t = t' := by
  have hirr : ∀ {m : String}, compare m l = .lt → m ≠ l := by
    rintro m hm rfl
    simp at hm
  -- The label is the first one that is not smaller, on both sides.
  induction t generalizing t' with
  | rowExtend m g u _ ihu =>
    by_cases hm : compare m l = .lt
    · rw [placeField_behind hm] at h
      cases t' with
      | rowExtend m' g' u' =>
        by_cases hm' : compare m' l = .lt
        · rw [placeField_behind hm'] at h
          injection h with h₁ h₂ h₃
          obtain ⟨rfl, rfl⟩ := ihu h₃
          exact ⟨rfl, by rw [h₁, h₂]⟩
        · rw [placeField_before hm'] at h
          injection h with h₁
          exact absurd h₁ (hirr hm)
      | _ => injection h with h₁; exact absurd h₁ (hirr hm)
    · rw [placeField_before hm] at h
      cases t' with
      | rowExtend m' g' u' =>
        by_cases hm' : compare m' l = .lt
        · rw [placeField_behind hm'] at h
          injection h with h₁
          exact absurd h₁.symm (hirr hm')
        · rw [placeField_before hm'] at h
          injection h with h₁ h₂ h₃
          exact ⟨h₂, h₃⟩
      | _ => injection h with h₁ h₂ h₃; exact ⟨h₂, h₃⟩
  | _ =>
    cases t' with
    | rowExtend m' g' u' =>
      by_cases hm' : compare m' l = .lt
      · rw [placeField_behind hm'] at h
        injection h with h₁
        exact absurd h₁.symm (hirr hm')
      · rw [placeField_before hm'] at h
        injection h with h₁ h₂ h₃
        exact ⟨h₂, h₃⟩
    | _ => injection h with h₁ h₂ h₃; exact ⟨h₂, h₃⟩

theorem placeField_ne {l : String} {f t t' : Ty} (h : ∀ l f r, t' ≠ rowExtend l f r) :
    placeField l f t ≠ t' := by
  cases t with
  | rowExtend m g u =>
    by_cases hm : compare m l = .lt
    · rw [placeField_behind hm]; exact fun he => h _ _ _ he.symm
    · rw [placeField_before hm]; exact fun he => h _ _ _ he.symm
  | _ => exact fun he => h _ _ _ he.symm

theorem size_placeField (l : String) (f t : Ty) :
    (placeField l f t).size = f.size + t.size + 1 := by
  induction t with
  | rowExtend m g u _ ihu =>
    by_cases hm : compare m l = .lt
    · rw [placeField_behind hm, size, ihu, size]
      omega
    · rw [placeField_before hm, size]
  | _ => rfl

theorem mem_rowLabels_placeField {l m : String} {f t : Ty} :
    m ∈ (placeField l f t).rowLabels ↔ m = l ∨ m ∈ t.rowLabels := by
  induction t with
  | rowExtend m' g u _ ihu =>
    by_cases hm : compare m' l = .lt
    · rw [placeField_behind hm, rowLabels_rowExtend, List.mem_cons, ihu, rowLabels_rowExtend,
        List.mem_cons]
      exact or_left_comm
    · rw [placeField_before hm, rowLabels_rowExtend, List.mem_cons]
  | _ => exact List.mem_cons

theorem mem_freeVars_placeField {l : String} {f t : Ty} {v : TyVar} :
    v ∈ (placeField l f t).freeVars ↔ v ∈ f.freeVars ∨ v ∈ t.freeVars := by
  induction t with
  | rowExtend m g u _ ihu =>
    by_cases hm : compare m l = .lt
    · rw [placeField_behind hm, mem_freeVars_rowExtend, ihu, mem_freeVars_rowExtend]
      exact or_left_comm
    · rw [placeField_before hm, mem_freeVars_rowExtend]
  | _ => exact mem_freeVars_rowExtend

/-! ## Reading a type -/

/-- Reads a type: its variables have the given values, and its rows are sorted by label. -/
def eval (φ : TyVar → Ty) : Ty → Ty
  | var v => φ v
  | int => int
  | bool => bool
  | fn a r => fn (a.eval φ) (r.eval φ)
  | record r => record (r.eval φ)
  | rowEmpty => rowEmpty
  | rowExtend l f t => placeField l (f.eval φ) (t.eval φ)

/-- The representative with sorted rows. -/
def norm (t : Ty) : Ty := t.eval var

theorem norm_fn (a r : Ty) : (fn a r).norm = fn a.norm r.norm := rfl

theorem norm_record (r : Ty) : (record r).norm = record r.norm := rfl

theorem norm_rowExtend (l : String) (f t : Ty) :
    (rowExtend l f t).norm = placeField l f.norm t.norm := rfl

theorem eval_placeField (φ : TyVar → Ty) (l : String) (f t : Ty) :
    (placeField l f t).eval φ = placeField l (f.eval φ) (t.eval φ) := by
  induction t with
  | rowExtend m g u _ ihu =>
    by_cases hm : compare m l = .lt
    · have hne : m ≠ l := by
        rintro rfl
        simp at hm
      rw [placeField_behind hm, eval, ihu, eval, placeField_comm hne]
    · rw [placeField_before hm, eval]
  | _ => rfl

theorem eval_eval (φ ψ : TyVar → Ty) (t : Ty) :
    (t.eval φ).eval ψ = t.eval fun v => (φ v).eval ψ := by
  induction t with
  | fn a r iha ihr => simp only [eval, iha, ihr]
  | record r ih => simp only [eval, ih]
  | rowExtend l f t ihf iht => simp only [eval, eval_placeField, ihf, iht]
  | _ => rfl

theorem eval_subst (φ : TyVar → Ty) (s : Subst) (t : Ty) :
    (t.subst s).eval φ = t.eval fun v => (s.app v).eval φ := by
  induction t with
  | fn a r iha ihr => simp only [eval, subst, iha, ihr]
  | record r ih => simp only [eval, subst, ih]
  | rowExtend l f t ihf iht => simp only [eval, subst, ihf, iht]
  | _ => rfl

theorem eval_congr {φ ψ : TyVar → Ty} {t : Ty} (h : ∀ v ∈ t.freeVars, φ v = ψ v) :
    t.eval φ = t.eval ψ := by
  induction t with
  | var v => exact h v (by simp)
  | fn a r iha ihr =>
    simp only [mem_freeVars_fn] at h
    rw [eval, eval, iha fun v hv => h v (.inl hv), ihr fun v hv => h v (.inr hv)]
  | record r ih => exact congrArg record (ih h)
  | rowExtend l f t ihf iht =>
    simp only [mem_freeVars_rowExtend] at h
    rw [eval, eval, ihf fun v hv => h v (.inl hv), iht fun v hv => h v (.inr hv)]
  | _ => rfl

theorem eval_norm (φ : TyVar → Ty) (t : Ty) : t.norm.eval φ = t.eval φ := eval_eval var φ t

@[simp] theorem norm_norm (t : Ty) : t.norm.norm = t.norm := eval_norm var t

/-- Readings with sorted values are sorted. -/
theorem norm_eval {φ : TyVar → Ty} (h : ∀ v, (φ v).norm = φ v) (t : Ty) :
    (t.eval φ).norm = t.eval φ :=
  (eval_eval φ var t).trans (eval_congr fun v _ => h v)

theorem norm_subst (s : Subst) (t : Ty) : (t.subst s).norm = t.eval fun v => (s.app v).norm :=
  eval_subst var s t

theorem mem_freeVars_eval {φ : TyVar → Ty} {t : Ty} {v : TyVar} :
    v ∈ (t.eval φ).freeVars ↔ ∃ u ∈ t.freeVars, v ∈ (φ u).freeVars := by
  induction t with
  | var w => simp [eval]
  | fn a r iha ihr => simp [eval, iha, ihr, or_and_right, exists_or]
  | record r ih => simpa [eval] using ih
  | rowExtend l f t ihf iht =>
    simp [eval, mem_freeVars_placeField, ihf, iht, or_and_right, exists_or]
  | _ => simp [eval]

theorem mem_freeVars_norm {t : Ty} {v : TyVar} : v ∈ t.norm.freeVars ↔ v ∈ t.freeVars := by
  simp [norm, mem_freeVars_eval]

/-- A variable's value is no larger than what it is part of, and smaller than all but itself. -/
theorem size_le_size_eval (φ : TyVar → Ty) {t : Ty} {v : TyVar} (h : v ∈ t.freeVars) :
    (φ v).size ≤ (t.eval φ).size ∧ (t ≠ var v → (φ v).size < (t.eval φ).size) := by
  induction t with
  | var w =>
    obtain rfl := mem_freeVars_var.1 h
    exact ⟨Nat.le_refl _, fun hne => absurd rfl hne⟩
  | fn a r iha ihr =>
    simp only [eval, size]
    rcases mem_freeVars_fn.1 h with h | h
    · have := (iha h).1; omega
    · have := (ihr h).1; omega
  | record r ih =>
    have := (ih h).1
    simp only [eval, size]
    omega
  | rowExtend l f t ihf iht =>
    simp only [eval, size_placeField]
    rcases mem_freeVars_rowExtend.1 h with h | h
    · have := (ihf h).1; omega
    · have := (iht h).1; omega
  | _ => simp at h

/-- A type does not read like a variable that occurs strictly inside it. -/
theorem eval_ne_of_occurs (φ : TyVar → Ty) {t : Ty} {v : TyVar} (h : v ∈ t.freeVars)
    (hne : t ≠ var v) : φ v ≠ t.eval φ := by
  intro he
  have hlt := (size_le_size_eval φ h).2 hne
  rw [he] at hlt
  exact Nat.lt_irrefl _ hlt

/-! ## Chains of fields -/

section ExtendRow

variable (pre : List (String × Ty))

@[simp] theorem extendRow_nil (t : Ty) : extendRow [] t = t := rfl

@[simp] theorem extendRow_cons (e : String × Ty) (t : Ty) :
    extendRow (e :: pre) t = rowExtend e.1 e.2 (extendRow pre t) := rfl

theorem extendRow_append (post : List (String × Ty)) (t : Ty) :
    extendRow (pre ++ post) t = extendRow pre (extendRow post t) := List.foldr_append

theorem subst_extendRow (s : Subst) (t : Ty) :
    (extendRow pre t).subst s = extendRow (pre.map fun e => (e.1, e.2.subst s)) (t.subst s) := by
  induction pre with
  | nil => rfl
  | cons e pre ih => simp [subst, ih]

theorem mem_freeVars_extendRow {t : Ty} {v : TyVar} :
    v ∈ (extendRow pre t).freeVars ↔ (∃ e ∈ pre, v ∈ e.2.freeVars) ∨ v ∈ t.freeVars := by
  induction pre with
  | nil => simp
  | cons e pre ih => simp [ih, or_assoc]

@[simp] theorem rowLabels_extendRow (t : Ty) :
    (extendRow pre t).rowLabels = pre.map Prod.fst ++ t.rowLabels := by
  induction pre with
  | nil => rfl
  | cons e pre ih => exact congrArg (e.1 :: ·) ih

/-- The field behind a chain that does not hold its label can be placed last. -/
theorem eval_extendRow_rowExtend (φ : TyVar → Ty) {l : String} (h : l ∉ pre.map Prod.fst)
    (f t : Ty) : (extendRow pre (rowExtend l f t)).eval φ =
      placeField l (f.eval φ) ((extendRow pre t).eval φ) := by
  induction pre with
  | nil => rfl
  | cons e pre ih =>
    simp only [List.map_cons, List.mem_cons, not_or] at h
    rw [extendRow_cons, extendRow_cons, eval, eval, ih h.2, placeField_comm (Ne.symm h.1)]

theorem mem_rowLabels_eval_extendRow {φ : TyVar → Ty} {t : Ty} {l : String} :
    l ∈ ((extendRow pre t).eval φ).rowLabels ↔ l ∈ pre.map Prod.fst ∨ l ∈ (t.eval φ).rowLabels := by
  induction pre with
  | nil => simp
  | cons e pre ih => simp [eval, mem_rowLabels_placeField, ih, or_assoc]

theorem eval_extendRow_congr {φ : TyVar → Ty} {t t' : Ty} (h : t.eval φ = t'.eval φ) :
    (extendRow pre t).eval φ = (extendRow pre t').eval φ := by
  induction pre with
  | nil => exact h
  | cons e pre ih => rw [extendRow_cons, extendRow_cons, eval, eval, ih]

end ExtendRow

/-- A row can be taken apart at the first field with a label that it holds. -/
theorem exists_eq_extendRow {l : String} {t : Ty} (h : l ∈ t.rowLabels) :
    ∃ pre f r, t = extendRow pre (rowExtend l f r) ∧ l ∉ pre.map Prod.fst := by
  induction t with
  | rowExtend m g u _ ihu =>
    by_cases hm : m = l
    · subst hm
      exact ⟨[], g, u, rfl, List.not_mem_nil⟩
    · obtain ⟨pre, f, r, hu, hl⟩ := ihu ((List.mem_cons.1 h).resolve_left fun he => hm he.symm)
      refine ⟨(m, g) :: pre, f, r, congrArg (rowExtend m g) hu, fun hmem => ?_⟩
      exact (List.mem_cons.1 hmem).elim (fun he => hm he.symm) hl
  | _ => cases h

/-- Any label of a row can be placed last. -/
theorem exists_norm_eq_placeField {l : String} {t : Ty} (h : l ∈ t.rowLabels) :
    ∃ f r : Ty, t.norm = placeField l f.norm r.norm := by
  obtain ⟨pre, f, r, rfl, hl⟩ := exists_eq_extendRow h
  exact ⟨f, extendRow pre r, eval_extendRow_rowExtend pre var hl f r⟩

theorem mem_rowLabels_norm {l : String} {t : Ty} : l ∈ t.norm.rowLabels ↔ l ∈ t.rowLabels := by
  induction t with
  | rowExtend m f t _ iht =>
    rw [norm_rowExtend, mem_rowLabels_placeField, iht, rowLabels_rowExtend, List.mem_cons]
  | _ => rfl

end Ty

/-! ## Equivalent types have the same representative -/

namespace RowEquiv

theorem placeField (l : String) (f t : Ty) :
    RowEquiv (.rowExtend l f t) (Ty.placeField l f t) := by
  induction t with
  | rowExtend m g u _ ihu =>
    by_cases hm : compare m l = .lt
    · have hne : l ≠ m := by
        rintro rfl
        simp at hm
      rw [Ty.placeField_behind hm]
      exact (swap hne).trans (.rowExtend (.refl g) ihu)
    · rw [Ty.placeField_before hm]
      exact .refl _
  | _ => exact .refl _

theorem norm (t : Ty) : RowEquiv t t.norm := by
  induction t with
  | fn a r iha ihr => exact .fn iha ihr
  | record r ih => exact .record ih
  | rowExtend l f t ihf iht => exact (RowEquiv.rowExtend ihf iht).trans (placeField ..)
  | _ => exact .refl _

theorem norm_eq {t t' : Ty} (h : RowEquiv t t') : t.norm = t'.norm := by
  induction h with
  | refl t => rfl
  | symm _ ih => exact ih.symm
  | trans _ _ ih ih' => exact ih.trans ih'
  | fn _ _ iha ihr => rw [Ty.norm_fn, Ty.norm_fn, iha, ihr]
  | record _ ih => rw [Ty.norm_record, Ty.norm_record, ih]
  | rowExtend _ _ ihf iht => rw [Ty.norm_rowExtend, Ty.norm_rowExtend, ihf, iht]
  | swap hne => exact Ty.placeField_comm hne ..

end RowEquiv

theorem rowEquiv_iff {t t' : Ty} : RowEquiv t t' ↔ t.norm = t'.norm :=
  ⟨RowEquiv.norm_eq, fun h => (RowEquiv.norm t).trans (h ▸ (RowEquiv.norm t').symm)⟩

instance (t t' : Ty) : Decidable (RowEquiv t t') := decidable_of_iff _ rowEquiv_iff.symm

end RowTyping
