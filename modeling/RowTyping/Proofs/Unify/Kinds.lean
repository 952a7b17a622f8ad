import RowTyping.Proofs.Kinding
import RowTyping.Proofs.Unify.Relation

/-!
# Kinds in unification

Unification of two types of one kind, or of two rows without the same labels, stays among
well-kinded types: the substitution gives every variable a type of its own kind
(`Unified.respects`). A failure is then one of the four that concern the two types, never one
about the form of a row (`Refused.isTypeError`). Neither needs the issued variables to be new.
-/

namespace RowTyping

/-! ## Rows of a kind -/

namespace Ty

theorem HasKind.decomposeAvoiding {t : Ty} {ls : Labels} (h : t.HasKind (.lacks ls)) :
    ∃ r, t.decomposeAvoiding ls = .ok r := by
  induction t generalizing ls with
  | var v => exact ⟨_, rfl⟩
  | rowEmpty => exact ⟨_, rfl⟩
  | rowExtend l f t _ iht =>
    obtain ⟨r, hr⟩ := iht h.2.2
    refine ⟨⟨(l, f) :: r.fields, r.tail⟩, ?_⟩
    rw [Ty.decomposeAvoiding, if_neg h.1, hr]
    rfl
  | _ => exact h.elim

theorem HasKind.isProper {t : Ty} {ls : Labels} (h : t.HasKind (.lacks ls)) : t.IsProper :=
  h.row.decomposeAvoiding

theorem HasKind.isRow {t : Ty} {ls : Labels} (h : t.HasKind (.lacks ls)) : t.isRow = true := by
  cases t with
  | var v => rfl
  | rowEmpty => rfl
  | rowExtend l f t => rfl
  | _ => exact h.elim

/-- The end of a row excludes what the row excludes. -/
theorem HasKind.mem_labels_of_rowEnd {t : Ty} {ls : Labels} (h : t.HasKind (.lacks ls))
    {w : TyVar} (hw : t.rowEndVar? = some w) {l : String} (hl : l ∈ ls) : l ∈ w.labels := by
  induction t generalizing ls with
  | var v =>
    cases hw
    rw [hasKind_var, Constraint.eq_lacks_of_within h] at h
    exact h l hl
  | rowExtend m f t _ iht => exact iht h.2.2 hw (OrdSet.mem_insert.2 (.inr hl))
  | _ => cases hw

/-- The variable at the end of a row is constrained. -/
theorem HasKind.rowEnd_constraint {pre : List (String × Ty)} {w : TyVar} {ls : Labels}
    (h : (extendRow pre (var w)).HasKind (.lacks ls)) : w.constraint = .lacks w.labels :=
  Constraint.eq_lacks_of_within (hasKind_extendRow.1 h).2.2

/-- What is left of a row when one of its fields is taken out. -/
theorem HasKind.found {pre : List (String × Ty)} {label : String} {f t : Ty} {ls : Labels}
    (h : (extendRow pre (rowExtend label f t)).HasKind (.lacks ls))
    (hl : label ∉ pre.map Prod.fst) :
    f.HasKind .free ∧ (extendRow pre t).HasKind (.lacks (ls.insert label)) := by
  have he : RowEquiv (extendRow pre (rowExtend label f t)) (rowExtend label f (extendRow pre t)) :=
    rowEquiv_iff.2 (eval_extendRow_rowExtend pre var hl f t)
  exact (he.hasKind h).2

theorem HasKind.opened {pre : List (String × Ty)} {label : String} {w : TyVar} {ls : Labels}
    (h : (extendRow pre (var w)).HasKind (.lacks ls)) (hl : label ∉ pre.map Prod.fst)
    (cfg : Config) (n : Nat) : (extendRow pre (var
      (cfg.rowVar n (w.labels ∪ .singleton label)))).HasKind (.lacks (ls.insert label)) := by
  obtain ⟨hn, hpre, hw⟩ := hasKind_extendRow.1 h
  refine hasKind_extendRow.2 ⟨hn, fun e he => ⟨fun hi => ?_, (hpre e he).2⟩, fun l hl' => ?_⟩
  · rcases OrdSet.mem_insert.1 hi with hi | hi
    · exact hl (hi ▸ List.mem_map_of_mem he)
    · exact (hpre e he).1 hi
  · rw [hasKind_var, h.rowEnd_constraint] at hw
    rw [OrdSet.mem_union, OrdSet.mem_singleton]
    rcases OrdSet.mem_union.1 hl' with hl' | hl'
    · rcases OrdSet.mem_insert.1 hl' with rfl | hl'
      · exact .inr rfl
      · exact .inl (hw l (OrdSet.mem_union.2 (.inl hl')))
    · exact .inl (hw l (OrdSet.mem_union.2 (.inr hl')))

end Ty

theorem Config.opening_respects (cfg : Config) (n : Nat) {w : TyVar} {label : String}
    (hc : w.constraint = .lacks w.labels) (hw : label ∉ w.labels) :
    (cfg.opening n w label).Respects := by
  refine .singleton ?_
  rw [hc, Ty.hasKind_rowExtend]
  refine ⟨hw, trivial, fun l hl => ?_⟩
  rw [OrdSet.mem_union, OrdSet.mem_singleton]
  exact (OrdSet.mem_insert.1 hl).symm

theorem Config.opened_hasKind (cfg : Config) (n : Nat) (w : TyVar) (label : String)
    (hs : (cfg.opening n w label).Respects) :
    ((Ty.var (cfg.typeVar (n + 1))).subst (cfg.opening n w label)).HasKind .free :=
  .subst hs (Ty.hasKind_var_self _)

/-! ## Unifiers respect kinds -/

/-- A row comes to lack more labels when its end does, and the end lacks what it lacked. -/
theorem Ty.HasKind.restrict {fields : List (String × Ty)} {w : TyVar} {ls ms : Labels}
    (h : (extendRow fields (var w)).HasKind (.lacks ms))
    (hls : ∀ l ∈ fields.map Prod.fst, l ∉ ls) {r : TyVar}
    (hr : r.constraint = .lacks (ls ∪ w.labels)) :
    Subst.Respects (.singleton w (.var r)) ∧
      ((extendRow fields (var w)).subst (.singleton w (.var r))).HasKind (.lacks ls) := by
  obtain ⟨hn, hpre, hw⟩ := hasKind_extendRow.1 h
  rw [hasKind_var, h.rowEnd_constraint] at hw
  have hs : Subst.Respects (.singleton w (.var r)) := by
    refine .singleton ?_
    rw [h.rowEnd_constraint, hasKind_var, hr]
    exact fun l hl => OrdSet.mem_union.2 (.inr hl)
  have hend : (var w).subst (.singleton w (.var r)) = var r :=
    (Subst.app_singleton ..).trans (if_pos rfl)
  refine ⟨hs, ?_⟩
  rw [subst_extendRow, hend]
  have hmap : (fields.map fun e => (e.1, e.2.subst (.singleton w (.var r)))).map Prod.fst =
      fields.map Prod.fst := List.map_map
  refine hasKind_extendRow.2 ⟨hmap ▸ hn, fun e he => ?_, ?_⟩
  · obtain ⟨e₀, he₀, rfl⟩ := List.mem_map.1 he
    exact ⟨hls e₀.1 (List.mem_map_of_mem he₀), (hpre e₀ he₀).2.subst hs⟩
  · rw [hasKind_var, hr, hmap]
    intro l hl
    rcases OrdSet.mem_union.1 hl with hl | hl
    · exact OrdSet.mem_union.2 (.inl hl)
    · exact OrdSet.mem_union.2 (.inr (hw l (OrdSet.mem_union.2 (.inr hl))))

theorem Binds.respects {cfg : Config} {n : Nat} {u : TyVar} {t : Ty} {vs : List TyVar} {s : Subst}
    (h : Binds cfg n u t vs s) {k : Constraint} (hu : k.Within u.constraint) (ht : t.HasKind k) :
    s.Respects := by
  cases h with
  | type _ hc =>
    rw [hc] at hu
    refine .singleton ?_
    cases k with
    | free => rw [hc]; exact ht
    | lacks ls => exact hu.elim
  | @closed ls fields _ hc hd hls =>
    rw [hc] at hu
    have ht' : t = .extendRow fields .rowEmpty := (Ty.decompose_ok hd).1
    have hn : (fields.map Prod.fst).Nodup := (Ty.decompose_ok hd).2
    cases k with
    | free => exact hu.elim
    | lacks ms =>
      subst ht'
      refine .singleton ?_
      rw [hc]
      exact Ty.hasKind_extendRow.2 ⟨hn, fun e he => ⟨hls _ (List.mem_map_of_mem he),
        ((Ty.hasKind_extendRow.1 ht).2.1 e he).2⟩, trivial⟩
  | @opened ls fields w _ hc hd hls =>
    rw [hc] at hu
    have ht' : t = .extendRow fields (.var w) := (Ty.decompose_ok hd).1
    cases k with
    | free => exact hu.elim
    | lacks ms =>
      subst ht'
      obtain ⟨hr, hrow⟩ := ht.restrict hls (cfg.rowVar_constraint n (ls ∪ w.labels))
      -- The row has the kind of `u` only after its end was replaced.
      intro v τ hv
      rcases Subst.get?_compose_eq_some hv with hv | ⟨t₀, ht₀, rfl⟩
      · exact hr v τ hv
      · obtain ⟨rfl, rfl⟩ := OrderedMap.get?_singleton_eq_some ht₀
        rw [hc]
        exact hrow

/-- The unifier of two types of one kind gives every variable a type of its own kind. -/
theorem Unified.respects {cfg : Config} {n : Nat} {t₁ t₂ : Ty} {vs : List TyVar} {s : Subst}
    (h : Unified cfg n t₁ t₂ vs s) {k : Constraint} (h₁ : t₁.HasKind k) (h₂ : t₂.HasKind k) :
    s.Respects := by
  induction h generalizing k with
  | typeVars _ hu hv =>
    refine .singleton ?_
    rw [hu, Ty.hasKind_var, hv]
    trivial
  | @rowVars n u v _ hfree =>
    cases k with
    | free =>
      exact absurd ⟨Constraint.eq_free_of_within h₁, Constraint.eq_free_of_within h₂⟩ hfree
    | lacks ls =>
      have hu := Constraint.eq_lacks_of_within h₁
      have hv := Constraint.eq_lacks_of_within h₂
      refine .insert (.singleton ?_) ?_
      · rw [hu]
        exact fun l hl => OrdSet.mem_union.2 (.inl hl)
      · rw [hv]
        exact fun l hl => OrdSet.mem_union.2 (.inr hl)
  | bindLeft _ hb => exact hb.respects h₁ h₂
  | bindRight _ hb => exact hb.respects h₂ h₁
  | fn _ _ ih₁ ih₂ =>
    have hs₁ := ih₁ h₁.of_fn.1 h₂.of_fn.1
    exact (ih₂ (h₁.of_fn.2.subst hs₁) (h₂.of_fn.2.subst hs₁)).compose hs₁
  | record _ ih => exact ih h₁.of_record h₂.of_record
  | rowFound _ _ hrow hl _ _ ih₁ ih₂ =>
    obtain ⟨ls, rfl⟩ := h₁.eq_lacks
    obtain ⟨-, hf₁, ht₁⟩ := h₁
    obtain ⟨hf₂, ht₂⟩ := (hrow ▸ h₂).found hl
    have hs₁ := ih₁ hf₁ hf₂
    exact (ih₂ (ht₁.subst hs₁) (ht₂.subst hs₁)).compose hs₁
  | @rowOpened n label _ _ _ _ w _ _ _ _ _ _ hrow _ hl hw _ _ _ ih₁ ih₂ =>
    obtain ⟨ls, rfl⟩ := h₁.eq_lacks
    obtain ⟨-, hf₁, ht₁⟩ := h₁
    rw [hrow] at h₂
    have hs₀ := cfg.opening_respects n h₂.rowEnd_constraint hw
    have hs := (ih₁ (hf₁.subst hs₀) (cfg.opened_hasKind n w label hs₀)).compose hs₀
    exact (ih₂ (ht₁.subst hs) ((h₂.opened hl cfg n).subst hs)).compose hs
  | _ => exact .empty

/-- Types of one kind lead to types of one kind. -/
theorem Leads.sameKind {cfg : Config} {n m : Nat} {t₁ t₂ u₁ u₂ : Ty}
    (h : Leads cfg n t₁ t₂ m u₁ u₂) {k : Constraint} (h₁ : t₁.HasKind k) (h₂ : t₂.HasKind k) :
    ∃ k', u₁.HasKind k' ∧ u₂.HasKind k' := by
  cases h with
  | fnArg => exact ⟨.free, h₁.of_fn.1, h₂.of_fn.1⟩
  | fnRet hu =>
    have hs := hu.respects h₁.of_fn.1 h₂.of_fn.1
    exact ⟨.free, h₁.of_fn.2.subst hs, h₂.of_fn.2.subst hs⟩
  | record => exact ⟨_, h₁.of_record, h₂.of_record⟩
  | foundField hl =>
    obtain ⟨ls, rfl⟩ := h₁.eq_lacks
    exact ⟨.free, h₁.2.1, (h₂.found hl).1⟩
  | foundTail hl hu =>
    obtain ⟨ls, rfl⟩ := h₁.eq_lacks
    have hs := hu.respects h₁.2.1 (h₂.found hl).1
    exact ⟨_, h₁.2.2.subst hs, (h₂.found hl).2.subst hs⟩
  | openedField _ hw =>
    obtain ⟨ls, rfl⟩ := h₁.eq_lacks
    have hs₀ := cfg.opening_respects n h₂.rowEnd_constraint hw
    exact ⟨.free, h₁.2.1.subst hs₀, cfg.opened_hasKind n _ _ hs₀⟩
  | @openedTail label _ _ _ w _ _ hl hw hu =>
    obtain ⟨ls, rfl⟩ := h₁.eq_lacks
    have hs₀ := cfg.opening_respects n h₂.rowEnd_constraint hw
    have hs := (hu.respects (h₁.2.1.subst hs₀) (cfg.opened_hasKind n w label hs₀)).compose hs₀
    exact ⟨_, h₁.2.2.subst hs, (h₂.opened hl cfg n).subst hs⟩

/-! ## Failures -/

/-- The failures that tell an expression without a type, or two types without a common
instance. -/
def Fault.IsTypeError : Fault → Prop
  | infer (.unboundVariable _) => True
  | infer (.mismatch ..) => True
  | infer (.occurs ..) => True
  | infer (.duplicateLabels _) => True
  | infer (.labelNotFound _) => True
  | _ => False

instance : DecidablePred Fault.IsTypeError := fun f => by
  unfold Fault.IsTypeError
  split <;> infer_instance

theorem BindRefused.isTypeError {u : TyVar} {t : Ty} {f : Fault} (h : BindRefused u t f)
    {k : Constraint} (hu : k.Within u.constraint) (ht : t.HasKind k) : f.IsTypeError := by
  cases h with
  | occurs => trivial
  | notRow => trivial
  | improper hc _ hd =>
    rw [hc] at hu
    cases k with
    | free => exact hu.elim
    | lacks ls =>
      obtain ⟨r, hr⟩ := ht.isProper
      rw [hd] at hr
      cases hr
  | clash => trivial

theorem ExposeRefused.isTypeError {row : Ty} {label : String} {f : Fault}
    (h : ExposeRefused row label f) (hv : ∀ v, row ≠ .var v) {ls : Labels}
    (hrow : row.HasKind (.lacks ls)) : f.IsTypeError := by
  cases h with
  | missing => trivial
  | excluded => trivial
  | bareVar hr => exact (hv _ hr).elim
  | badEnd pre hr _ ht =>
    rw [hr] at hrow
    have ht' := (Ty.hasKind_extendRow.1 hrow).2.2.isRow
    rw [ht] at ht'
    cases ht'

/-- Unification of two types of one kind never fails because of the form of a row. -/
theorem Refused.isTypeError {cfg : Config} {d n : Nat} {t₁ t₂ : Ty} {vs : List TyVar} {f : Fault}
    (h : Refused cfg d n t₁ t₂ vs f) (hf : f ≠ .outOfFuel) {k : Constraint} (h₁ : t₁.HasKind k)
    (h₂ : t₂.HasKind k) : f.IsTypeError := by
  induction h generalizing k with
  | tooDeep => exact absurd rfl hf
  | clash => trivial
  | bindLeft _ hb => exact hb.isTypeError h₁ h₂
  | bindRight _ hb => exact hb.isTypeError h₂ h₁
  | fnArg _ ih => exact ih hf h₁.of_fn.1 h₂.of_fn.1
  | fnRet hu _ ih =>
    obtain ⟨_, hr₁, hr₂⟩ := (Leads.fnRet hu).sameKind h₁ h₂
    exact ih hf hr₁ hr₂
  | record _ ih => exact ih hf h₁.of_record h₂.of_record
  | rowImproper hd =>
    obtain ⟨ls, rfl⟩ := h₁.eq_lacks
    obtain ⟨r₁, hr₁⟩ := h₁.isProper
    obtain ⟨r₂, hr₂⟩ := h₂.isProper
    rw [hr₁, hr₂] at hd
    rcases hd with hd | hd <;> cases hd
  | rowExpose _ _ hv he =>
    obtain ⟨ls, rfl⟩ := h₁.eq_lacks
    exact he.isTypeError hv h₂
  | rowShared _ _ hw _ hend =>
    -- The end of the first row lacks its first label.
    obtain ⟨ls, rfl⟩ := h₁.eq_lacks
    exact (hw (h₁.2.2.mem_labels_of_rowEnd hend (OrdSet.mem_insert.2 (.inl rfl)))).elim
  | foundField _ _ hrow hl _ ih =>
    obtain ⟨ls, rfl⟩ := h₁.eq_lacks
    exact ih hf h₁.2.1 ((hrow ▸ h₂).found hl).1
  | foundTail _ _ hrow hl hu _ ih =>
    subst hrow
    obtain ⟨_, hr₁, hr₂⟩ := (Leads.foundTail hl hu).sameKind h₁ h₂
    exact ih hf hr₁ hr₂
  | openedField _ _ hrow _ hl hw _ _ ih =>
    subst hrow
    obtain ⟨_, hf₁, hf₂⟩ := (Leads.openedField hl hw).sameKind h₁ h₂
    exact ih hf hf₁ hf₂
  | openedTail _ _ hrow _ hl hw _ hu _ ih =>
    subst hrow
    obtain ⟨_, hr₁, hr₂⟩ := (Leads.openedTail hl hw hu).sameKind h₁ h₂
    exact ih hf hr₁ hr₂

end RowTyping
