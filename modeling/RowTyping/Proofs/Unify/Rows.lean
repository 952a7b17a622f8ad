import Mathlib.Data.List.Induction
import Mathlib.Logic.Relation
import RowTyping.Proofs.Unify.Steps

/-!
# Taking rows apart

Two programs take a row apart. `Ty.decompose` splits it into its fields and its end and checks it on
the way; `expose` brings one label to the front and, if the label is missing, opens the end of the
row for it.

`Splits` lists the four ways in which splitting can end, by the fields and the end of the row. Since
splitting walks over distinct labels (`Ty.decomposeAvoiding_extendRow`), it is enough to look at the
first label that repeats an earlier one, or at the end of the chain.

The runs of `expose` are exactly those of the relations `Exposes` and `ExposeRefused`
(`expose_ok_iff`, `expose_error_iff`), and each of their rules can be told from the labels and the
end of the row. The field that is brought to the front moves there by exchanging neighbours with
different labels (`Ty.Swap`): nothing else in the row changes its place, and no field is changed.
-/

namespace RowTyping

open InferM Relation

/-! ## Splitting a row -/

/-- The label repeats an earlier one, and none before it does. -/
def FirstRepeat (labels : List String) (l : String) : Prop :=
  ∃ pre post, labels = pre ++ l :: post ∧ pre.Nodup ∧ l ∈ pre

theorem exists_firstRepeat {labels : List String} (h : ¬labels.Nodup) :
    ∃ l, FirstRepeat labels l := by
  induction labels using List.reverseRecOn with
  | nil => exact absurd List.nodup_nil h
  | append_singleton labels last ih =>
    by_cases hn : labels.Nodup
    · refine ⟨last, labels, [], rfl, hn, ?_⟩
      by_contra hlast
      exact h (List.nodup_append.2 ⟨hn, by simp, by grind⟩)
    · obtain ⟨l, pre, post, rfl, hpre⟩ := ih hn
      exact ⟨l, pre, post ++ [last], by simp, hpre⟩

/-- How splitting a row with these fields ends, by the type behind them. -/
inductive Splits (fields : List (String × Ty)) : Ty → Except Fault Row → Prop
  | closed : (fields.map Prod.fst).Nodup → Splits fields .rowEmpty (.ok ⟨fields, none⟩)
  | opened {v : TyVar} : (fields.map Prod.fst).Nodup →
      Splits fields (.var v) (.ok ⟨fields, some v⟩)
  /-- A repeated label is reported whatever the chain ends in. -/
  | repeated {l : String} {t : Ty} : FirstRepeat (fields.map Prod.fst) l →
      Splits fields t (.error (.infer (.duplicateLabels (.singleton l))))
  | badEnd {t : Ty} : (fields.map Prod.fst).Nodup → t.isRow = false →
      Splits fields t (.error (.notARow .decompose t))

theorem Splits.exists (fields : List (String × Ty)) {t : Ty}
    (ht : ∀ l f r, t ≠ .rowExtend l f r) : ∃ r, Splits fields t r := by
  by_cases hn : (fields.map Prod.fst).Nodup
  · cases t with
    | rowEmpty => exact ⟨_, .closed hn⟩
    | var v => exact ⟨_, .opened hn⟩
    | rowExtend l f r => exact absurd rfl (ht l f r)
    | _ => exact ⟨_, .badEnd hn rfl⟩
  · obtain ⟨l, hl⟩ := exists_firstRepeat hn
    exact ⟨_, .repeated hl⟩

namespace Ty

theorem rowFields_extendRow (pre : List (String × Ty)) (t : Ty) :
    (extendRow pre t).rowFields = pre ++ t.rowFields := by
  induction pre with
  | nil => rfl
  | cons e pre ih => exact congrArg (e :: ·) ih

theorem decompose_repeated {fields : List (String × Ty)} {l : String}
    (h : FirstRepeat (fields.map Prod.fst) l) (t : Ty) :
    (extendRow fields t).decompose = .error (.repeated l) := by
  obtain ⟨labels, post, hlabels, hn, hl⟩ := h
  obtain ⟨pre, rest, rfl, rfl, hrest⟩ := List.map_eq_append_iff.1 hlabels
  obtain ⟨e, rest, rfl, rfl, -⟩ := List.map_eq_cons_iff.1 hrest
  have hseen : e.1 ∈ OrdSet.ofList (pre.map Prod.fst) ∪ .empty :=
    OrdSet.mem_union.2 (.inl (OrdSet.mem_ofList.2 hl))
  rw [extendRow_append, decompose_extendRow hn, extendRow_cons, decomposeAvoiding, if_pos hseen]
  rfl

theorem decompose_badEnd {fields : List (String × Ty)} (hn : (fields.map Prod.fst).Nodup) {t : Ty}
    (ht : t.isRow = false) : (extendRow fields t).decompose = .error (.badEnd t) := by
  rw [decompose_extendRow hn]
  cases t with
  | rowEmpty | rowExtend | var => cases ht
  | _ => rfl

theorem decompose_of_splits {fields : List (String × Ty)} {t : Ty} {r : Except Fault Row}
    (h : Splits fields t r) : (extendRow fields t).decompose.mapError RowDefect.toFault = r := by
  cases h with
  | closed hn =>
    have hd : (extendRow fields rowEmpty).decompose = .ok ⟨fields, none⟩ :=
      decompose_toTy (r := ⟨fields, none⟩) hn
    rw [hd]
    rfl
  | @opened v hn =>
    have hd : (extendRow fields (var v)).decompose = .ok ⟨fields, some v⟩ :=
      decompose_toTy (r := ⟨fields, some v⟩) hn
    rw [hd]
    rfl
  | repeated hl =>
    rw [decompose_repeated hl]
    rfl
  | badEnd hn ht =>
    rw [decompose_badEnd hn ht]
    rfl

/-- The parts of a split row are those that the bare walk along the row finds. -/
theorem rowFields_of_decompose {row : Ty} {r : Row} (h : row.decompose = .ok r) :
    row.rowFields = r.fields ∧ row.rowEnd = r.tail.elim rowEmpty var := by
  rw [(decompose_ok h).1, Row.toTy, rowFields_extendRow, rowEnd_extendRow]
  cases r.tail with
  | none => exact ⟨List.append_nil _, rfl⟩
  | some v => exact ⟨List.append_nil _, rfl⟩

/-- Building a record and splitting its row are inverse to each other. A record built from fields
and an end, the empty row if none is given, has a row that splits into these again if the labels
differ and the end is that of a row; else the first repeated label is reported or, if there is none,
the end. A row that splits is the one that is built from its parts. -/
theorem decompose_recordOf :
    (∀ (fields : List (String × Ty)) (tail? : Option Ty) (row : Ty),
      (∀ l f t, tail? ≠ some (rowExtend l f t)) →
      recordOf fields (tail?.getD rowEmpty) = record row →
      ∀ r, row.decompose.mapError RowDefect.toFault = r ↔
        Splits fields (tail?.getD rowEmpty) r) ∧
    ∀ (row : Ty) (r : Row), row.decompose = .ok r →
      recordOf r.fields (r.tail.elim rowEmpty var) = record row ∧
        row.rowFields = r.fields ∧ row.rowEnd = r.tail.elim rowEmpty var := by
  refine ⟨?_, ?_⟩
  · intro fields tail? row htail hrow r
    obtain rfl : extendRow fields (tail?.getD rowEmpty) = row := record.inj hrow
    have hend : ∀ l f t, tail?.getD rowEmpty ≠ rowExtend l f t := by
      intro l f t
      cases tail? with
      | none => simp
      | some e => exact fun he => htail l f t (congrArg some he)
    refine ⟨fun h => ?_, decompose_of_splits⟩
    -- Splitting has one result only, so it is the one that the rules allow.
    obtain ⟨r', hr'⟩ := Splits.exists fields hend
    rwa [← h, decompose_of_splits hr']
  · intro row r h
    exact ⟨congrArg record (decompose_ok h).1.symm, rowFields_of_decompose h⟩

theorem decompose_recordOf_repeats :
    (extendRow [("x", int), ("y", bool), ("z", int), ("y", int), ("x", bool)] int).decompose.mapError
        RowDefect.toFault = .error (.infer (.duplicateLabels (.singleton "y"))) ∧
      (extendRow [("x", int), ("y", bool)] int).decompose.mapError RowDefect.toFault =
        .error (.notARow .decompose int) ∧
      recordOf [("x", int), ("y", bool)] (var ⟨"r", .free⟩) =
        record (rowExtend "x" int (rowExtend "y" bool (var ⟨"r", .free⟩))) := by
  refine ⟨?_, ?_, ?_⟩
  · refine (decompose_recordOf.1 _ (some int) _ (by simp) rfl _).2 (.repeated ?_)
    exact ⟨["x", "y", "z"], ["x"], rfl, by decide, by decide⟩
  · exact (decompose_recordOf.1 _ (some int) _ (by simp) rfl _).2 (.badEnd (by decide) rfl)
  · exact (decompose_recordOf.2 _ ⟨_, some _⟩ (by decide)).1

end Ty

/-! ## The runs of a search for a label -/

section Runs

variable {cfg : Config} {n : Nat} {row : Ty} {label : String}

/-- The search ends as it does at the last field of the row. -/
theorem expose_lastField_ends {pre : List (String × Ty)} {t : Ty} {vs : List TyVar}
    {r : Except Fault Exposed} (hne : pre ≠ []) (hl : label ∉ pre.map Prod.fst)
    (h : ∀ other field, other ≠ label → Ends cfg (expose (.rowExtend other field t) label) n vs
      (r.map fun e => { e with rest := .rowExtend other field e.rest })) :
    Ends cfg (expose (.extendRow pre t) label) n vs
      (r.map fun e => { e with rest := .extendRow pre e.rest }) := by
  obtain ⟨init, ⟨other, field⟩, rfl⟩ := (List.eq_nil_or_concat pre).resolve_left hne
  rw [List.concat_eq_append, List.map_append, List.mem_append, not_or] at hl
  have hother : other ≠ label := fun he => hl.2 (by simp [he])
  have hends := expose_behind_ends hl.1 (by simp) (h other field hother)
  rw [List.concat_eq_append]
  simp only [Ty.extendRow_append]
  cases r <;> exact hends

theorem expose_excluded_ends {pre : List (String × Ty)} {w : TyVar} (hne : pre ≠ [])
    (hl : label ∉ pre.map Prod.fst) (hw : label ∈ w.labels) :
    Ends cfg (expose (.extendRow pre (.var w)) label) n []
      (.error (.infer (.duplicateLabels (.singleton label)))) := by
  refine expose_lastField_ends (r := .error _) hne hl fun other field ho => .trace_bind rfl ?_
  show Ends cfg (if other = label then _ else if label ∈ w.labels then _ else _) n _ _
  rw [if_neg ho, if_pos hw]
  exact .fail _

theorem expose_opened_ends {pre : List (String × Ty)} {w : TyVar} (hne : pre ≠ [])
    (hl : label ∉ pre.map Prod.fst) (hw : label ∉ w.labels) :
    Ends cfg (expose (.extendRow pre (.var w)) label) n
      [cfg.rowVar n (w.labels ∪ .singleton label), cfg.typeVar (n + 1)]
      (.ok ⟨.var (cfg.typeVar (n + 1)),
        .extendRow pre (.var (cfg.rowVar n (w.labels ∪ .singleton label))),
        cfg.opening n w label⟩) := by
  refine expose_lastField_ends (r := .ok ⟨_, _, _⟩) hne hl fun other field ho =>
    .trace_bind rfl ?_
  show Ends cfg (if other = label then _ else if label ∈ w.labels then _ else _) n _ _
  rw [if_neg ho, if_neg hw]
  exact (Ends.freshRow _).bind_ok (Ends.freshType.map _)

theorem Exposes.ends {vs : List TyVar} {e : Exposed} (h : Exposes cfg n row label vs e) :
    Ends cfg (expose row label) n vs (.ok e) := by
  cases h with
  | @found pre f t hrow hl =>
    rw [hrow]
    exact expose_found_ends hl f t
  | @opened pre w hrow hne hl hw =>
    rw [hrow]
    exact expose_opened_ends hne hl hw

theorem ExposeRefused.ends {f : Fault} (h : ExposeRefused row label f) :
    Ends cfg (expose row label) n [] (.error f) := by
  cases h with
  | missing pre hrow hl =>
    rw [hrow]
    exact expose_missing_ends hl
  | @excluded pre w hrow hne hl hw =>
    rw [hrow]
    exact expose_excluded_ends hne hl hw
  | bareVar hrow =>
    rw [hrow]
    exact .trace_bind rfl (.throw _)
  | @badEnd pre t hrow hl ht =>
    rw [hrow]
    refine expose_behind_ends (r := .error _) hl (by rintro w rfl; cases ht) ?_
    cases t with
    | rowEmpty | rowExtend | var => cases ht
    | _ => exact .trace_bind rfl (.throw _)

theorem expose_ok_iff {st : RunState} {e : Exposed} :
    (∃ st', expose row label cfg st = .ok e st') ↔ ∃ vs, Exposes cfg st.issued row label vs e := by
  refine ⟨?_, ?_⟩
  · intro h
    obtain ⟨st', h⟩ := h
    exact ⟨_, ((expose_yields row label).of_ok rfl h).1⟩
  · intro h
    obtain ⟨vs, h⟩ := h
    obtain ⟨st', hst, -⟩ := h.ends cfg.trace st rfl
    exact ⟨st', hst⟩

theorem expose_error_iff {st : RunState} {f : Fault} :
    (∃ st', expose row label cfg st = .error f st') ↔ ExposeRefused row label f := by
  refine ⟨?_, ?_⟩
  · intro h
    obtain ⟨st', h⟩ := h
    exact ((expose_yields row label).of_error rfl h).1.2
  · intro h
    obtain ⟨st', hst, -⟩ := h.ends cfg.trace st rfl
    exact ⟨st', hst⟩

/-! ## How a search ends, by the labels and the end of the row -/

theorem Ty.rowFields_of_eq {pre : List (String × Ty)} {t : Ty} (h : row = extendRow pre t)
    (ht : t.rowFields = []) : row.rowFields = pre ∧ row.rowEnd = t.rowEnd := by
  rw [h, rowFields_extendRow, rowEnd_extendRow, ht]
  exact ⟨List.append_nil pre, rfl⟩

theorem exposeRefused_labelNotFound :
    ExposeRefused row label (.infer (.labelNotFound label)) ↔
      label ∉ row.rowLabels ∧ row.rowEnd = .rowEmpty := by
  refine ⟨?_, ?_⟩
  · intro h
    cases h with
    | missing pre hrow hl =>
      obtain ⟨rfl, hend⟩ := Ty.rowFields_of_eq hrow rfl
      exact ⟨hl, hend⟩
  · rintro ⟨hl, hend⟩
    exact .missing row.rowFields (hend ▸ row.extendRow_rowFields.symm) hl

theorem exposeRefused_duplicateLabels :
    ExposeRefused row label (.infer (.duplicateLabels (.singleton label))) ↔
      label ∉ row.rowLabels ∧ row.rowFields ≠ [] ∧ ∃ w, row.rowEnd = .var w ∧ label ∈ w.labels := by
  refine ⟨?_, ?_⟩
  · intro h
    cases h with
    | @excluded pre w hrow hne hl hw =>
      obtain ⟨rfl, hend⟩ := Ty.rowFields_of_eq hrow rfl
      exact ⟨hl, hne, w, hend, hw⟩
  · rintro ⟨hl, hne, w, hend, hw⟩
    exact .excluded row.rowFields (hend ▸ row.extendRow_rowFields.symm) hne hl hw

theorem exposeRefused_notARow {t : Ty} :
    ExposeRefused row label (.notARow .expose t) ↔
      t = row.rowEnd ∧ label ∉ row.rowLabels ∧
        ((∃ v, row = .var v) ∨ row.rowEnd.isRow = false) := by
  refine ⟨?_, ?_⟩
  · intro h
    cases h with
    | @bareVar v hrow =>
      subst hrow
      exact ⟨rfl, List.not_mem_nil, .inl ⟨v, rfl⟩⟩
    | @badEnd pre t hrow hl ht =>
      have hend : t.rowFields = [] ∧ t.rowEnd = t := by
        cases t with
        | rowEmpty | rowExtend | var => cases ht
        | _ => exact ⟨rfl, rfl⟩
      obtain ⟨rfl, he⟩ := Ty.rowFields_of_eq hrow hend.1
      rw [hend.2] at he
      exact ⟨he.symm, hl, .inr (he ▸ ht)⟩
  · rintro ⟨rfl, hl, ⟨v, rfl⟩ | ht⟩
    · exact .bareVar rfl
    · exact .badEnd row.rowFields row.extendRow_rowFields.symm hl ht

theorem exists_exposes :
    (∃ e vs, Exposes cfg n row label vs e) ↔ label ∈ row.rowLabels ∨
      row.rowFields ≠ [] ∧ ∃ w, row.rowEnd = .var w ∧ label ∉ w.labels := by
  refine ⟨?_, ?_⟩
  · rintro ⟨e, vs, h⟩
    cases h with
    | @found pre f t hrow hl => exact .inl (by simp [hrow])
    | @opened pre w hrow hne hl hw =>
      obtain ⟨rfl, hend⟩ := Ty.rowFields_of_eq hrow rfl
      exact .inr ⟨hne, w, hend, hw⟩
  · intro h
    by_cases hl : label ∈ row.rowLabels
    · obtain ⟨pre, f, t, hrow, hpre⟩ := Ty.exists_eq_extendRow hl
      exact ⟨_, _, .found pre hrow hpre⟩
    · obtain ⟨hne, w, hend, hw⟩ := h.resolve_left hl
      exact ⟨_, _, .opened row.rowFields (hend ▸ row.extendRow_rowFields.symm) hne hl hw⟩

end Runs

/-! ## The label in front -/

/-- Two neighbouring fields of a row with different labels change places. -/
inductive Ty.Swap : Ty → Ty → Prop
  | front {l l' : String} {f f' t : Ty} : l ≠ l' →
      Swap (.rowExtend l f (.rowExtend l' f' t)) (.rowExtend l' f' (.rowExtend l f t))
  | behind {l : String} {f t t' : Ty} : Swap t t' → Swap (.rowExtend l f t) (.rowExtend l f t')

theorem Ty.swaps_extendRow {pre : List (String × Ty)} {l : String} (hl : l ∉ pre.map Prod.fst)
    (f t : Ty) : ReflTransGen Swap (extendRow pre (rowExtend l f t))
      (rowExtend l f (extendRow pre t)) := by
  induction pre with
  | nil => exact .refl
  | cons e pre ih =>
    rw [List.map_cons, List.mem_cons, not_or] at hl
    have hbehind : ReflTransGen Swap (rowExtend e.1 e.2 (extendRow pre (rowExtend l f t)))
        (rowExtend e.1 e.2 (rowExtend l f (extendRow pre t))) :=
      (ih hl.2).lift (rowExtend e.1 e.2) fun _ _ => .behind
    exact hbehind.tail (.front (Ne.symm hl.1))

namespace Exposes

variable {cfg : Config} {n : Nat} {row : Ty} {label : String} {vs : List TyVar} {e : Exposed}

/-- The label moves to the front past its neighbours. Where the end of the row is opened, the fields
may mention that end, and the substitution changes them on both sides. -/
theorem swaps (h : Exposes cfg n row label vs e) (hfresh : ∀ v ∈ vs, v ∉ row.freeVars) :
    ReflTransGen Ty.Swap (row.subst e.subst)
      (.rowExtend label (e.field.subst e.subst) (e.rest.subst e.subst)) := by
  cases h with
  | @found pre f t hrow hl =>
    rw [Ty.subst_empty, Ty.subst_empty, Ty.subst_empty, hrow]
    exact Ty.swaps_extendRow hl f t
  | @opened pre w hrow hne hl hw =>
    have hmem : w ∈ row.freeVars := by
      rw [hrow]
      exact (Ty.mem_freeVars_extendRow pre).2 (.inr (Ty.mem_freeVars_var.2 rfl))
    have hfield : w ≠ cfg.typeVar (n + 1) := fun he => hfresh _ (by simp) (he ▸ hmem)
    have hrest : w ≠ cfg.rowVar n (w.labels ∪ .singleton label) := rowVar_union_ne hw
    have hkeep : ∀ {v : TyVar}, w ≠ v →
        (Ty.var v).subst (cfg.opening n w label) = .var v := fun hv =>
      Ty.subst_singleton_eq_self fun hm => hv (Ty.mem_freeVars_var.1 hm)
    have hend : (Ty.var w).subst (cfg.opening n w label) =
        .rowExtend label (.var (cfg.typeVar (n + 1)))
          (.var (cfg.rowVar n (w.labels ∪ .singleton label))) :=
      (Subst.app_singleton w w _).trans (if_pos rfl)
    rw [hrow, Ty.subst_extendRow, Ty.subst_extendRow, hkeep hfield, hkeep hrest, hend]
    refine Ty.swaps_extendRow ?_ _ _
    rwa [List.map_map]

/-- No field is lost, and no other one moves. -/
theorem rowFields_rest (h : Exposes cfg n row label vs e) (hn : row.rowLabels.Nodup) :
    e.rest.rowFields = row.rowFields.filter fun f => f.1 ≠ label := by
  have hkeep : ∀ {fs : List (String × Ty)}, label ∉ fs.map Prod.fst →
      fs.filter (fun f => f.1 ≠ label) = fs := by
    intro fs hfs
    refine List.filter_eq_self.2 fun f hf => decide_eq_true fun he => hfs ?_
    exact he ▸ List.mem_map_of_mem hf
  cases h with
  | @found pre f t hrow hl =>
    have ht : label ∉ t.rowLabels := by
      rw [hrow, Ty.rowLabels_extendRow, Ty.rowLabels_rowExtend] at hn
      exact (List.nodup_cons.1 (List.nodup_append.1 hn).2.1).1
    rw [hrow, Ty.rowFields_extendRow, Ty.rowFields_extendRow, List.filter_append, hkeep hl]
    refine congrArg (pre ++ ·) ?_
    rw [Ty.rowFields, List.filter_cons_of_neg (by simp), hkeep ht]
  | @opened pre w hrow hne hl hw =>
    rw [hrow, Ty.rowFields_extendRow, Ty.rowFields_extendRow, List.filter_append, hkeep hl]
    rfl

theorem of_mem (h : Exposes cfg n row label vs e) (hmem : label ∈ row.rowLabels) :
    e.subst = .empty ∧ (label, e.field) ∈ row.rowFields ∧ e.rest.rowEnd = row.rowEnd := by
  cases h with
  | @found pre f t hrow hl =>
    rw [hrow, Ty.rowFields_extendRow, Ty.rowEnd_extendRow, Ty.rowEnd_extendRow]
    exact ⟨rfl, List.mem_append_right _ List.mem_cons_self, rfl⟩
  | @opened pre w hrow hne hl hw =>
    obtain ⟨rfl, -⟩ := Ty.rowFields_of_eq hrow rfl
    exact absurd hmem hl

theorem of_not_mem (h : Exposes cfg n row label vs e) (hmem : label ∉ row.rowLabels) :
    ∃ α β γ : TyVar, row.rowEnd = .var α ∧ e.field = .var γ ∧ e.rest.rowEnd = .var β ∧
      β.constraint = .lacks (α.labels ∪ .singleton label) ∧
      e.subst = .singleton α (.rowExtend label (.var γ) (.var β)) := by
  cases h with
  | @found pre f t hrow hl =>
    refine absurd ?_ hmem
    rw [hrow, Ty.rowLabels_extendRow]
    exact List.mem_append_right _ List.mem_cons_self
  | @opened pre w hrow hne hl hw =>
    obtain ⟨-, hend⟩ := Ty.rowFields_of_eq hrow rfl
    exact ⟨w, _, _, hend, rfl, Ty.rowEnd_extendRow .., rfl, rfl⟩

end Exposes

/-- Bringing a label to the front of a row whose labels differ, for any state of the run that does
not issue variables of the row. The result is the row again, up to exchanging neighbours with
different labels, after a substitution that is empty if the row holds the label and else only opens
the end of the row. The faults are told apart by the labels and the end of the row. -/
theorem expose_toFront (cfg : Config) (st : RunState) (row : Ty) (label : String)
    (hn : row.rowLabels.Nodup)
    (hfresh : ∀ v ∈ (expose row label).issuedBy cfg st, v ∉ row.freeVars) :
    (∀ e st', expose row label cfg st = .ok e st' →
      ReflTransGen Ty.Swap (row.subst e.subst)
        (.rowExtend label (e.field.subst e.subst) (e.rest.subst e.subst)) ∧
      (e.rest.rowFields = row.rowFields.filter fun f => f.1 ≠ label) ∧
      (label ∈ row.rowLabels →
        e.subst = .empty ∧ (label, e.field) ∈ row.rowFields ∧ e.rest.rowEnd = row.rowEnd) ∧
      (label ∉ row.rowLabels → ∃ α β γ : TyVar, row.rowEnd = .var α ∧ e.field = .var γ ∧
        e.rest.rowEnd = .var β ∧ β.constraint = .lacks (α.labels ∪ .singleton label) ∧
        e.subst = .singleton α (.rowExtend label (.var γ) (.var β)))) ∧
    ((∃ e st', expose row label cfg st = .ok e st') ↔ label ∈ row.rowLabels ∨
      row.rowFields ≠ [] ∧ ∃ α, row.rowEnd = .var α ∧ label ∉ α.labels) ∧
    ((∃ st', expose row label cfg st = .error (.infer (.labelNotFound label)) st') ↔
      label ∉ row.rowLabels ∧ row.rowEnd = .rowEmpty) ∧
    ((∃ st', expose row label cfg st =
        .error (.infer (.duplicateLabels (.singleton label))) st') ↔
      label ∉ row.rowLabels ∧ row.rowFields ≠ [] ∧ ∃ α, row.rowEnd = .var α ∧ label ∈ α.labels) ∧
    ∀ t, (∃ st', expose row label cfg st = .error (.notARow .expose t) st') ↔
      t = row.rowEnd ∧ label ∉ row.rowLabels ∧
        ((∃ v, row = .var v) ∨ row.rowEnd.isRow = false) := by
  refine ⟨?_, ?_, ?_, ?_, ?_⟩
  · intro e st' h
    have he := ((expose_yields row label).of_ok rfl h).1
    exact ⟨he.swaps hfresh, he.rowFields_rest hn, he.of_mem, he.of_not_mem⟩
  · simp only [expose_ok_iff]
    exact exists_exposes
  · exact expose_error_iff.trans exposeRefused_labelNotFound
  · exact expose_error_iff.trans exposeRefused_duplicateLabels
  · exact fun t => expose_error_iff.trans exposeRefused_notARow

/-- The row `y : {| t}, z : int | t`, whose end also occurs in a field. -/
def endInField : Ty :=
  let t : TyVar := ⟨"t", .lacks (.ofList ["y", "z"])⟩
  .extendRow [("y", .record (.var t)), ("z", .int)] (.var t)

theorem expose_toFront_endInField :
    endInField.rowLabels.Nodup ∧
      (∀ v ∈ (expose endInField "x").issuedBy {} { issued := 7 }, v ∉ endInField.freeVars) ∧
      (∃ e st', expose endInField "x" {} { issued := 7 } = .ok e st' ∧
        ReflTransGen Ty.Swap (endInField.subst e.subst)
          (.rowExtend "x" (e.field.subst e.subst) (e.rest.subst e.subst)) ∧
        e.rest.rowFields = endInField.rowFields ∧ e.subst.size = 1) ∧
      ¬∃ st', expose endInField "x" {} { issued := 7 } = .error (.infer (.labelNotFound "x")) st' := by
  have hn : endInField.rowLabels.Nodup := by decide
  have hfresh : ∀ v ∈ (expose endInField "x").issuedBy {} { issued := 7 },
      v ∉ endInField.freeVars := by decide
  obtain ⟨hok, hreturns, hmissing, -, -⟩ :=
    expose_toFront {} { issued := 7 } endInField "x" hn hfresh
  obtain ⟨e, st', h⟩ := hreturns.2 (.inr ⟨by decide, _, rfl, by decide⟩)
  obtain ⟨hswaps, hrest, -, hopened⟩ := hok e st' h
  obtain ⟨α, β, γ, -, -, -, -, hsubst⟩ := hopened (by decide)
  refine ⟨hn, hfresh, ⟨e, st', h, hswaps, hrest.trans (by decide), by rw [hsubst]; rfl⟩, ?_⟩
  rw [hmissing]
  decide

end RowTyping
