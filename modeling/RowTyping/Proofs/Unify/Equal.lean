import RowTyping.Proofs.Failures
import RowTyping.Proofs.Unify.Steps

/-!
# Unification recognises equal types

If every chain of fields in two types is a proper row (`Ty.ProperRows`), unification returns the
empty substitution exactly when the types are equal up to the order of their fields. Nothing is
asked of the names of variables, and no variable is issued.

An empty substitution means that no variable was bound at any depth, and then every step took the
two types apart into equal parts (`Unified.norm_eq_of_empty`). The other way round, sorted rows are
compared: the second row holds the first label of the first one somewhere, and taking that field out
of both leaves equal rows (`unifyWithin_equal_ends`).
-/

namespace RowTyping

/-! ## Types whose rows are proper -/

namespace Ty

/-- The labels along every chain of fields in the type differ, and the chain ends in the empty row
or in a variable. -/
def ProperRows : Ty → Prop
  | fn a r => a.ProperRows ∧ r.ProperRows
  | record r => r.ProperRows
  | rowExtend l f t => (rowExtend l f t).rowLabels.Nodup ∧
      (t.rowEnd = rowEmpty ∨ ∃ v, t.rowEnd = var v) ∧ f.ProperRows ∧ t.ProperRows
  | _ => True

theorem ProperRows.isProper {l : String} {f t : Ty} (h : (rowExtend l f t).ProperRows) :
    (rowExtend l f t).IsProper := isProper_of_nodup h.1 h.2.1

/-- A field may be taken out of a chain. -/
theorem ProperRows.found {pre : List (String × Ty)} {l : String} {f t : Ty}
    (h : (extendRow pre (rowExtend l f t)).ProperRows) :
    f.ProperRows ∧ (extendRow pre t).ProperRows := by
  induction pre with
  | nil => exact h.2.2
  | cons e pre ih =>
    rw [extendRow_cons, ProperRows, rowLabels_rowExtend, rowLabels_extendRow, rowEnd_extendRow] at h
    obtain ⟨hn, hend, he, hrest⟩ := h
    obtain ⟨hf, hrest⟩ := ih hrest
    rw [extendRow_cons, ProperRows, rowLabels_rowExtend, rowLabels_extendRow, rowEnd_extendRow]
    exact ⟨hf, hn.sublist (.cons_cons _ (.append (.refl _) (List.sublist_cons_self ..))), hend, he,
      hrest⟩

theorem size_pos (t : Ty) : 0 < t.size := by
  cases t <;> exact Nat.succ_pos _

end Ty

/-! ## Empty unifiers -/

theorem Subst.compose_eq_empty {newer older : Subst} (h : newer.compose older = .empty) :
    newer = .empty ∧ older = .empty := by
  have hempty : ∀ {s : Subst}, (∀ v, v ∉ s.keys) → s = .empty := by
    intro s hs
    exact OrderedMap.ext (List.map_eq_nil_iff.1 (List.eq_nil_iff_forall_not_mem.2 hs))
  have hkeys : ∀ v, ¬(v ∈ newer.keys ∨ v ∈ older.keys) := by
    intro v hv
    have hm := mem_keys_compose.2 hv
    rw [h] at hm
    cases hm
  exact ⟨hempty fun v hv => hkeys v (.inl hv), hempty fun v hv => hkeys v (.inr hv)⟩

theorem Binds.ne_empty {cfg : Config} {n : Nat} {u : TyVar} {t : Ty} {vs : List TyVar} {s : Subst}
    (h : Binds cfg n u t vs s) : s ≠ .empty := by
  intro hs
  cases h with
  | type => cases hs
  | closed => cases hs
  | opened => cases (Subst.compose_eq_empty hs).1

/-- If no variable is bound, the types are equal up to the order of fields, and no variable is
issued. -/
theorem Unified.norm_eq_of_empty {cfg : Config} {n : Nat} {t₁ t₂ : Ty} {vs : List TyVar}
    {s : Subst} (h : Unified cfg n t₁ t₂ vs s) (hs : s = .empty) :
    t₁.norm = t₂.norm ∧ vs = [] := by
  induction h with
  | typeVars => cases hs
  | @rowVars n u v =>
    have hv := congrArg (OrderedMap.get? · v) hs
    rw [OrderedMap.get?_insert, if_pos rfl] at hv
    cases hv
  | bindLeft _ hb => exact absurd hs hb.ne_empty
  | bindRight _ hb => exact absurd hs hb.ne_empty
  | @fn n a₁ a₂ r₁ r₂ vs₁ vs₂ s₁ s₂ _ _ ih₁ ih₂ =>
    obtain ⟨hs₂, hs₁⟩ := Subst.compose_eq_empty hs
    subst hs₁
    obtain ⟨harg, rfl⟩ := ih₁ rfl
    obtain ⟨hret, rfl⟩ := ih₂ hs₂
    rw [Ty.subst_empty, Ty.subst_empty] at hret
    exact ⟨by rw [Ty.norm_fn, Ty.norm_fn, harg, hret], rfl⟩
  | record _ ih =>
    obtain ⟨hrow, hvs⟩ := ih hs
    exact ⟨congrArg Ty.record hrow, hvs⟩
  | @rowFound n label field tail row f t pre vs₁ vs₂ s₁ s₂ _ _ hrow hl _ _ ih₁ ih₂ =>
    obtain ⟨hs₂, hs₁⟩ := Subst.compose_eq_empty hs
    subst hrow hs₁
    obtain ⟨hfield, rfl⟩ := ih₁ rfl
    obtain ⟨htail, rfl⟩ := ih₂ hs₂
    rw [Ty.subst_empty, Ty.subst_empty] at htail
    refine ⟨?_, rfl⟩
    rw [Ty.norm_rowExtend, hfield, htail]
    exact (Ty.eval_extendRow_rowExtend pre .var hl f t).symm
  | rowOpened =>
    -- The end of the second row was opened, so it is bound.
    cases (Subst.compose_eq_empty (Subst.compose_eq_empty hs).2).2
  | _ => exact ⟨rfl, rfl⟩

/-! ## Equal types -/

/-- Unification of equal types binds nothing and issues nothing. It goes no deeper than the first
type. -/
theorem unifyWithin_equal_ends {cfg : Config} {d n : Nat} {t₁ t₂ : Ty} (h₁ : t₁.ProperRows)
    (h₂ : t₂.ProperRows) (he : t₁.norm = t₂.norm) (hd : t₁.size ≤ d) :
    Ends cfg (unifyWithin d t₁ t₂) n [] (.ok .empty) := by
  induction d generalizing n t₁ t₂ with
  | zero => exact absurd hd (Nat.not_le.2 t₁.size_pos)
  | succ d ih =>
    cases t₁ with
    | fn a r =>
      cases t₂ with
      | fn a' r' =>
        obtain ⟨harg, hret⟩ := Ty.fn.inj he
        rw [Ty.size] at hd
        have hends := ih (n := n) h₁.2 h₂.2 hret (by omega)
        rw [← Ty.subst_empty r, ← Ty.subst_empty r'] at hends
        exact unifyWithin_fn_ends (ih h₁.1 h₂.1 harg (by omega)) hends
      | rowExtend l f t => exact absurd he.symm (Ty.placeField_ne fun _ _ _ h => by cases h)
      | _ => cases he
    | record r =>
      cases t₂ with
      | record r' =>
        rw [Ty.size] at hd
        exact unifyWithin_record_ends (ih h₁ h₂ (Ty.record.inj he) (by omega))
      | rowExtend l f t => exact absurd he.symm (Ty.placeField_ne fun _ _ _ h => by cases h)
      | _ => cases he
    | rowExtend l f t =>
      -- The other row holds the label as well, and without that field the rows are still equal.
      have hl : l ∈ t₂.rowLabels :=
        Ty.mem_rowLabels_norm.1 (he ▸ Ty.mem_rowLabels_placeField.2 (.inl rfl))
      obtain ⟨pre, f', t', rfl, hpre⟩ := Ty.exists_eq_extendRow hl
      obtain ⟨hfield, htail⟩ :=
        Ty.placeField_cancel (he.trans (Ty.eval_extendRow_rowExtend pre .var hpre f' t'))
      obtain ⟨hf', ht'⟩ := h₂.found
      have hp : (Ty.extendRow pre (.rowExtend l f' t')).IsProper := by
        cases pre <;> exact Ty.ProperRows.isProper h₂
      rw [Ty.size] at hd
      have hends := ih (n := n) h₁.2.2.2 ht' htail (by omega)
      rw [← Ty.subst_empty t, ← Ty.subst_empty (.extendRow pre t')] at hends
      exact unifyWithin_found_ends h₁.isProper hp hpre (ih h₁.2.2.1 hf' hfield (by omega)) hends
    | var u =>
      cases t₂ with
      | var v =>
        obtain rfl := Ty.var.inj he
        refine .trace_bind rfl ?_
        show Ends cfg (if u = u then _ else _) n _ _
        rw [if_pos rfl]
        exact .pure _
      | rowExtend l f t => exact absurd he.symm (Ty.placeField_ne fun _ _ _ h => by cases h)
      | _ => cases he
    | _ =>
      cases t₂ with
      | rowExtend l f t => exact absurd he.symm (Ty.placeField_ne fun _ _ _ h => by cases h)
      | _ => first | exact .trace_bind rfl (.pure _) | cases he

theorem size_le_unifyDepth (t₁ t₂ : Ty) : t₁.size ≤ unifyDepth t₁ t₂ := by
  unfold unifyDepth
  refine Nat.le_trans ?_ (Nat.le_mul_of_pos_right _ (Nat.pow_pos (by decide)))
  omega

/-- Whatever the state and the stems of the run, unification of two types whose rows are proper
returns the empty substitution exactly when the types are equal up to the order of fields. It then
issues no variable and leaves the slot for the last failure as it was. -/
theorem unify_empty_iff (cfg : Config) (st : RunState) (t₁ t₂ : Ty) (h₁ : t₁.ProperRows)
    (h₂ : t₂.ProperRows) :
    ((∃ st', unify t₁ t₂ cfg st = .ok .empty st') ↔ RowEquiv t₁ t₂) ∧
      ∀ st', unify t₁ t₂ cfg st = .ok .empty st' →
        st'.issued = st.issued ∧ st'.error = st.error := by
  have hrun : ∀ {st'}, unify t₁ t₂ cfg st = .ok .empty st' →
      RowEquiv t₁ t₂ ∧ st'.issued = st.issued := by
    intro st' h
    obtain ⟨hu, hi⟩ := (unifyWithin_yields cfg _ st.issued t₁ t₂).of_ok rfl h
    obtain ⟨he, hvs⟩ := hu.norm_eq_of_empty rfl
    refine ⟨rowEquiv_iff.2 he, ?_⟩
    rw [hi.issued, hvs]
    rfl
  refine ⟨⟨?_, ?_⟩, ?_⟩
  · intro h
    obtain ⟨st', h⟩ := h
    exact (hrun h).1
  · intro he
    have hends : Ends cfg (unify t₁ t₂) st.issued [] (.ok .empty) :=
      unifyWithin_equal_ends h₁ h₂ (rowEquiv_iff.1 he) (size_le_unifyDepth t₁ t₂)
    obtain ⟨st', h, -⟩ := hends cfg.trace st rfl
    exact ⟨st', h⟩
  · intro st' h
    exact ⟨(hrun h).2, (unifyWithin_keepsRecord _ t₁ t₂).of_ok h⟩

/-- The record `x : {p : int, q : a0 | r}, y : bool`, with the fields of the two rows in this order
or in the other one. Its variables have names that a run may issue. -/
def nestedRecord (swapped : Bool) : Ty :=
  let a0 : TyVar := ⟨"a0", .free⟩
  let r : TyVar := ⟨"r", .lacks (.ofList ["p", "q"])⟩
  let order (fields : List (String × Ty)) := if swapped then fields.reverse else fields
  .recordOf (order [("x", .recordOf (order [("p", .int), ("q", .var a0)]) (.var r)), ("y", .bool)])
    .rowEmpty

theorem unify_empty_iff_nestedRecord :
    (nestedRecord false).ProperRows ∧ (nestedRecord true).ProperRows ∧
      nestedRecord false ≠ nestedRecord true ∧
      ∃ st', unify (nestedRecord false) (nestedRecord true) { rowStem := "" }
          { error := some (.labelNotFound "z") } = .ok .empty st' ∧
        st'.issued = 0 ∧ st'.error = some (.labelNotFound "z") := by
  have h₁ : (nestedRecord false).ProperRows :=
    ⟨by decide, .inl rfl, ⟨by decide, .inr ⟨_, rfl⟩, trivial, by decide, .inr ⟨_, rfl⟩, trivial,
      trivial⟩, by decide, .inl rfl, trivial, trivial⟩
  have h₂ : (nestedRecord true).ProperRows :=
    ⟨by decide, .inl rfl, trivial, by decide, .inl rfl, ⟨by decide, .inr ⟨_, rfl⟩, trivial,
      by decide, .inr ⟨_, rfl⟩, trivial, trivial⟩, trivial⟩
  obtain ⟨hiff, hkeep⟩ := unify_empty_iff { rowStem := "" } { error := some (.labelNotFound "z") }
    (nestedRecord false) (nestedRecord true) h₁ h₂
  obtain ⟨st', hst⟩ := hiff.2 (by decide)
  exact ⟨h₁, h₂, by decide, st', hst, hkeep st' hst⟩

end RowTyping
