import RowTyping.Proofs.Unify.Relation

/-!
# Unification step by step

How a step of unification ends follows from how its calls end. There is a rule for each shape of the
two types that the program takes apart: functions, records, and rows of which the second holds the
first label of the other, or is closed and does not hold it. The rules keep track of the depth and
of the issued variables, so a run can be put together from them that is known to end.
-/

namespace RowTyping

open InferM

variable {cfg : Config} {d n : Nat}

/-! ## Proper rows -/

namespace Ty

theorem extendRow_rowFields (t : Ty) : extendRow t.rowFields t.rowEnd = t := by
  induction t with
  | rowExtend l f t _ iht => exact congrArg (rowExtend l f) iht
  | _ => rfl

/-- Splitting walks over labels that differ and have not been seen before. -/
theorem decomposeAvoiding_extendRow {pre : List (String × Ty)} {seen : Labels}
    (hn : (pre.map Prod.fst).Nodup) (hs : ∀ l ∈ pre.map Prod.fst, l ∉ seen) (t : Ty) :
    (extendRow pre t).decomposeAvoiding seen =
      (t.decomposeAvoiding (.ofList (pre.map Prod.fst) ∪ seen)).map fun r =>
        { r with fields := pre ++ r.fields } := by
  induction pre generalizing seen with
  | nil =>
    have hseen : OrdSet.ofList ([] : List String) ∪ seen = seen := OrdSet.ext fun l => by simp
    rw [List.map_nil, hseen]
    cases h : t.decomposeAvoiding seen <;> exact h
  | cons e pre ih =>
    obtain ⟨he, hn⟩ := List.nodup_cons.1 hn
    obtain ⟨hl, hs⟩ := List.forall_mem_cons.1 hs
    have hrest : ∀ l ∈ pre.map Prod.fst, l ∉ seen.insert e.1 := by
      intro l hm hins
      rcases OrdSet.mem_insert.1 hins with rfl | hins
      · exact he hm
      · exact hs l hm hins
    have hseen : OrdSet.ofList (pre.map Prod.fst) ∪ seen.insert e.1 =
        OrdSet.ofList ((e :: pre).map Prod.fst) ∪ seen :=
      OrdSet.ext fun l => by simp [or_left_comm, or_assoc]
    rw [extendRow_cons, decomposeAvoiding, if_neg hl, ih hn hrest, hseen]
    cases t.decomposeAvoiding (OrdSet.ofList ((e :: pre).map Prod.fst) ∪ seen) <;> rfl

theorem decompose_extendRow {pre : List (String × Ty)} (hn : (pre.map Prod.fst).Nodup) (t : Ty) :
    (extendRow pre t).decompose =
      (t.decomposeAvoiding (.ofList (pre.map Prod.fst) ∪ .empty)).map fun r =>
        { r with fields := pre ++ r.fields } :=
  decomposeAvoiding_extendRow hn (fun l _ => OrdSet.not_mem_empty l) t

/-- A row is the decomposition of the type that it stands for. -/
theorem decompose_toTy {r : Row} (hn : (r.fields.map Prod.fst).Nodup) :
    r.toTy.decompose = .ok r := by
  obtain ⟨fields, tail⟩ := r
  rw [Row.toTy, decompose_extendRow hn]
  cases tail <;> simp [decomposeAvoiding, Except.map]

theorem isProper_of_nodup {t : Ty} (hn : t.rowLabels.Nodup)
    (he : t.rowEnd = rowEmpty ∨ ∃ v, t.rowEnd = var v) : t.IsProper := by
  have htoTy : ∀ tail : Option TyVar, t.rowEnd = tail.elim rowEmpty var → t.IsProper := by
    intro tail ht
    refine ⟨⟨t.rowFields, tail⟩, ?_⟩
    have hrow : (Row.mk t.rowFields tail).toTy = t := by
      rw [Row.toTy, ← ht, extendRow_rowFields]
    exact (congrArg decompose hrow).symm.trans (decompose_toTy hn)
  rcases he with he | ⟨v, he⟩
  · exact htoTy none he
  · exact htoTy (some v) he

end Ty

/-! ## Exposing a label -/

theorem properRow_ends {t : Ty} {r : Row} (h : t.decompose = .ok r) :
    Ends cfg (properRow t) n [] (.ok r) := by
  unfold properRow
  rw [h]
  exact .pure r

/-- A field that is not wanted is passed over and put back in front. -/
theorem expose_later_ends {other label : String} {field tail : Ty} {vs : List TyVar}
    {r : Except Fault Exposed} (hne : other ≠ label) (hv : ∀ w, tail ≠ .var w)
    (h : Ends cfg (expose tail label) n vs r) :
    Ends cfg (expose (.rowExtend other field tail) label) n vs
      (r.map fun e => { e with rest := .rowExtend other field e.rest }) := by
  refine .trace_bind rfl ?_
  show Ends cfg (if other = label then _ else _) n _ _
  rw [if_neg hne]
  cases tail with
  | var w => exact absurd rfl (hv w)
  | _ => exact h.map _

/-- The search walks along fields that are not wanted and puts them back in front. -/
theorem expose_behind_ends {pre : List (String × Ty)} {label : String} {t : Ty} {vs : List TyVar}
    {r : Except Fault Exposed} (hl : label ∉ pre.map Prod.fst) (hv : ∀ w, t ≠ .var w)
    (h : Ends cfg (expose t label) n vs r) :
    Ends cfg (expose (.extendRow pre t) label) n vs
      (r.map fun e => { e with rest := .extendRow pre e.rest }) := by
  induction pre with
  | nil => cases r <;> exact h
  | cons e pre ih =>
    rw [List.map_cons, List.mem_cons, not_or] at hl
    have hv' : ∀ w, Ty.extendRow pre t ≠ .var w := by
      cases pre with
      | nil => exact hv
      | cons => exact fun w hw => by cases hw
    have hends : Ends cfg (expose (.rowExtend e.1 e.2 (.extendRow pre t)) label) n vs _ :=
      expose_later_ends (Ne.symm hl.1) hv' (ih hl.2)
    cases r <;> exact hends

theorem expose_found_ends {pre : List (String × Ty)} {label : String}
    (hl : label ∉ pre.map Prod.fst) (f t : Ty) :
    Ends cfg (expose (.extendRow pre (.rowExtend label f t)) label) n []
      (.ok ⟨f, .extendRow pre t, .empty⟩) := by
  refine expose_behind_ends (r := .ok ⟨f, t, .empty⟩) hl (by simp) (.trace_bind rfl ?_)
  show Ends cfg (if label = label then _ else _) n _ _
  rw [if_pos rfl]
  exact .pure _

theorem expose_missing_ends {pre : List (String × Ty)} {label : String}
    (hl : label ∉ pre.map Prod.fst) :
    Ends cfg (expose (.extendRow pre .rowEmpty) label) n []
      (.error (.infer (.labelNotFound label))) :=
  expose_behind_ends (r := .error _) hl (by simp) (.trace_bind rfl (.fail _))

/-! ## Taking two types apart -/

theorem unifyWithin_fn_ends {a₁ a₂ r₁ r₂ : Ty} {vs₁ vs₂ : List TyVar} {s₁ : Subst}
    {r : Except Fault Subst} (h₁ : Ends cfg (unifyWithin d a₁ a₂) n vs₁ (.ok s₁))
    (h₂ : Ends cfg (unifyWithin d (r₁.subst s₁) (r₂.subst s₁)) (n + vs₁.length) vs₂ r) :
    Ends cfg (unifyWithin (d + 1) (.fn a₁ r₁) (.fn a₂ r₂)) n (vs₁ ++ vs₂)
      (r.map (Subst.compose · s₁)) :=
  .trace_bind rfl (h₁.bind_ok (h₂.map _))

theorem unifyWithin_fnArg_ends {a₁ a₂ r₁ r₂ : Ty} {vs : List TyVar} {f : Fault}
    (h : Ends cfg (unifyWithin d a₁ a₂) n vs (.error f)) :
    Ends cfg (unifyWithin (d + 1) (.fn a₁ r₁) (.fn a₂ r₂)) n vs (.error f) :=
  .trace_bind rfl h.bind_error

theorem unifyWithin_record_ends {r₁ r₂ : Ty} {vs : List TyVar} {r : Except Fault Subst}
    (h : Ends cfg (unifyWithin d r₁ r₂) n vs r) :
    Ends cfg (unifyWithin (d + 1) (.record r₁) (.record r₂)) n vs r :=
  .trace_bind rfl h

theorem unifyWithin_rows_ends {label : String} {field tail row : Ty} {vs : List TyVar}
    {r : Except Fault Subst} (hv : ∀ v, row ≠ .var v) (hr : row.isRow)
    (h : Ends cfg (unifyRows (unifyWithin d) label field tail row) n vs r) :
    Ends cfg (unifyWithin (d + 1) (.rowExtend label field tail) row) n vs r := by
  refine .trace_bind rfl ?_
  cases row with
  | rowExtend l f t => exact h
  | rowEmpty => exact h
  | var v => exact absurd rfl (hv v)
  | _ => cases hr

/-- The second row holds the first label of the first one. -/
theorem unifyWithin_found_ends {label : String} {field tail f t : Ty} {pre : List (String × Ty)}
    {vs₁ vs₂ : List TyVar} {s₁ : Subst} {r : Except Fault Subst}
    (hp₁ : (Ty.rowExtend label field tail).IsProper)
    (hp₂ : (Ty.extendRow pre (.rowExtend label f t)).IsProper) (hl : label ∉ pre.map Prod.fst)
    (h₁ : Ends cfg (unifyWithin d field f) n vs₁ (.ok s₁))
    (h₂ : Ends cfg (unifyWithin d (tail.subst s₁) ((Ty.extendRow pre t).subst s₁))
      (n + vs₁.length) vs₂ r) :
    Ends cfg (unifyWithin (d + 1) (.rowExtend label field tail)
      (.extendRow pre (.rowExtend label f t))) n (vs₁ ++ vs₂) (r.map (Subst.compose · s₁)) := by
  obtain ⟨r₁, hr₁⟩ := hp₁
  obtain ⟨r₂, hr₂⟩ := hp₂
  refine unifyWithin_rows_ends (by cases pre <;> simp) (by cases pre <;> rfl) ?_
  refine (properRow_ends hr₁).bind_ok ((properRow_ends hr₂).bind_ok ?_)
  refine (expose_found_ends hl f t).bind_ok ?_
  simp only [Subst.find?_contains_empty, Ty.subst_empty, Subst.compose_empty]
  exact h₁.bind_ok (h₂.map _)

/-- The second row is closed and does not hold the first label of the first one. -/
theorem unifyWithin_missing_ends {label : String} {field tail : Ty} {pre : List (String × Ty)}
    (hp₁ : (Ty.rowExtend label field tail).IsProper) (hp₂ : (Ty.extendRow pre .rowEmpty).IsProper)
    (hl : label ∉ pre.map Prod.fst) :
    Ends cfg (unifyWithin (d + 1) (.rowExtend label field tail) (.extendRow pre .rowEmpty)) n []
      (.error (.infer (.labelNotFound label))) := by
  obtain ⟨r₁, hr₁⟩ := hp₁
  obtain ⟨r₂, hr₂⟩ := hp₂
  refine unifyWithin_rows_ends (by cases pre <;> simp) (by cases pre <;> rfl) ?_
  refine (properRow_ends hr₁).bind_ok ((properRow_ends hr₂).bind_ok ?_)
  exact (expose_missing_ends hl).bind_error

/-! ## New variables -/

/-- The second type stands for the first one: they are equal, or both are variables with one
constraint. -/
inductive Ty.StandsFor : Ty → Ty → Prop
  | refl (t : Ty) : StandsFor t t
  | var {u w : TyVar} : w.constraint = u.constraint → StandsFor (.var u) (.var w)

theorem Ty.StandsFor.trans {t t' t'' : Ty} (h : t.StandsFor t') (h' : t'.StandsFor t'') :
    t.StandsFor t'' := by
  cases h with
  | refl => exact h'
  | var hc =>
    cases h' with
    | refl => exact .var hc
    | var hc' => exact .var (hc'.trans hc)

theorem TyVar.constraint_eq_lacks {v : TyVar} (h : v.constraint ≠ .free) :
    v.constraint = .lacks v.labels := by
  unfold labels
  cases hc : v.constraint with
  | free => exact absurd hc h
  | lacks ls => rfl

theorem TyVar.labels_eq_empty {v : TyVar} (h : v.constraint = .free) : v.labels = .empty := by
  rw [labels, h]
  rfl

/-- Two merged variables come to stand for one variable. If one of them is unconstrained, that
variable has the constraint of the other. -/
theorem mergeVars_ends (cfg : Config) (n : Nat) {u v : TyVar} (hne : u ≠ v) :
    ∃ vs s w, Ends cfg (mergeVars u v) n vs (.ok s) ∧ s.app u = .var w ∧ s.app v = .var w ∧
      (u.constraint = .free → w.constraint = v.constraint) ∧
      (v.constraint = .free → w.constraint = u.constraint) := by
  unfold mergeVars
  rw [if_neg hne]
  by_cases hf : u.constraint = .free ∧ v.constraint = .free
  · rw [if_pos hf]
    refine ⟨[], _, v, .pure _, ?_, ?_, fun _ => rfl, fun _ => hf.2.trans hf.1.symm⟩
    · rw [Subst.app_singleton, if_pos rfl]
    · rw [Subst.app_singleton, if_neg (Ne.symm hne)]
  · rw [if_neg hf]
    refine ⟨_, _, cfg.rowVar n (u.labels ∪ v.labels), (Ends.freshRow _).map _, ?_, ?_, ?_, ?_⟩
    · refine Subst.app_of_get? ?_
      rw [OrderedMap.get?_insert, if_neg hne, OrderedMap.get?_singleton, if_pos rfl]
    · exact Subst.app_of_get? ((OrderedMap.get?_insert ..).trans (if_pos rfl))
    · intro hu
      rw [cfg.rowVar_constraint, TyVar.constraint_eq_lacks fun hv => hf ⟨hu, hv⟩,
        TyVar.labels_eq_empty hu]
      exact congrArg Constraint.lacks (OrdSet.ext fun l => by simp)
    · intro hv
      rw [cfg.rowVar_constraint, TyVar.constraint_eq_lacks fun hu => hf ⟨hu, hv⟩,
        TyVar.labels_eq_empty hv]
      exact congrArg Constraint.lacks (OrdSet.ext fun l => by simp)

theorem bindVar_free_ends {u : TyVar} {t : Ty} (hc : u.constraint = .free) (hu : u ∉ t.freeVars) :
    Ends cfg (bindVar u t) n [] (.ok (.singleton u t)) := by
  unfold bindVar
  rw [if_neg hu, hc]
  exact .pure _

section NewVar

variable (cfg n) {u : TyVar} {t : Ty} (hc : u.constraint = .free) (hu : u ∉ t.freeVars)

include hc hu

/-- An unconstrained variable comes to stand for a type in which it does not occur. -/
theorem unifyWithin_newVar_left : ∃ vs s,
    (∀ d, Ends cfg (unifyWithin (d + 1) (.var u) t) n vs (.ok s)) ∧ t.StandsFor (s.app u) := by
  cases t with
  | var v =>
    obtain ⟨vs, s, w, hends, hs, -, hw, -⟩ :=
      mergeVars_ends cfg n fun he => hu (Ty.mem_freeVars_var.2 he)
    exact ⟨vs, s, fun d => .trace_bind rfl hends, hs ▸ .var (hw hc)⟩
  | _ =>
    refine ⟨_, _, fun d => .trace_bind rfl (bindVar_free_ends hc hu), ?_⟩
    rw [Subst.app_singleton, if_pos rfl]
    exact .refl _

theorem unifyWithin_newVar_right : ∃ vs s,
    (∀ d, Ends cfg (unifyWithin (d + 1) t (.var u)) n vs (.ok s)) ∧ t.StandsFor (s.app u) := by
  cases t with
  | var v =>
    obtain ⟨vs, s, w, hends, -, hs, -, hw⟩ :=
      mergeVars_ends cfg n fun he => hu (Ty.mem_freeVars_var.2 he.symm)
    exact ⟨vs, s, fun d => .trace_bind rfl hends, hs ▸ .var (hw hc)⟩
  | _ =>
    refine ⟨_, _, fun d => .trace_bind rfl (bindVar_free_ends hc hu), ?_⟩
    rw [Subst.app_singleton, if_pos rfl]
    exact .refl _

end NewVar

/-- A variable that lacks one label is bound to a closed row, unless the row holds the label. -/
theorem unifyWithin_closedRow_ends (cfg : Config) (d n : Nat) {u : TyVar} {l : String}
    {fs : List (String × Ty)} (hc : u.constraint = .lacks (.singleton l))
    (hfs : (fs.map Prod.fst).Nodup) (hu : u ∉ (Ty.extendRow fs .rowEmpty).freeVars) :
    Ends cfg (unifyWithin (d + 1) (.var u) (.extendRow fs .rowEmpty)) n []
      (if l ∈ fs.map Prod.fst then .error (.infer (.duplicateLabels (.singleton l)))
      else .ok (.singleton u (.extendRow fs .rowEmpty))) := by
  have hrow : (Ty.extendRow fs .rowEmpty).decompose = .ok ⟨fs, none⟩ :=
    Ty.decompose_toTy (r := ⟨fs, none⟩) hfs
  have hisRow : (Ty.extendRow fs .rowEmpty).isRow = true := by cases fs <;> rfl
  have hclash : OrdSet.singleton l ∩ Row.labels ⟨fs, none⟩ =
      if l ∈ fs.map Prod.fst then .singleton l else .empty := by
    refine OrdSet.ext fun m => ?_
    rw [OrdSet.mem_inter, Row.labels, OrdSet.mem_ofList, OrdSet.mem_singleton]
    split
    · next hl =>
      rw [OrdSet.mem_singleton]
      exact and_iff_left_of_imp fun hm => hm ▸ hl
    · next hl =>
      refine iff_of_false (fun hm => ?_) (OrdSet.not_mem_empty m)
      exact hl (hm.1 ▸ hm.2)
  have hbind : Ends cfg (bindVar u (.extendRow fs .rowEmpty)) n []
      (if l ∈ fs.map Prod.fst then .error (.infer (.duplicateLabels (.singleton l)))
      else .ok (.singleton u (.extendRow fs .rowEmpty))) := by
    unfold bindVar
    rw [if_neg hu, hc]
    unfold bindRow
    rw [hisRow]
    refine (properRow_ends hrow).bind_ok ?_
    dsimp only
    rw [hclash]
    split
    · exact .fail _
    · exact .pure _
  cases fs <;> exact .trace_bind rfl hbind

end RowTyping
