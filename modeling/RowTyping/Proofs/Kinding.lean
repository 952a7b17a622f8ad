import RowTyping.Proofs.RowOrder

/-!
# Kinds

The syntax of types does not tell types from rows; `Ty.HasKind` does. A kind is what a variable
may be constrained to: `.free` is the kind of types, `.lacks ls` that of the rows without a label
of `ls`. In a type of kind `.free`, type positions hold unconstrained variables, `Int`, `Bool`,
functions and records of rows; row positions hold the empty row, constrained variables and fields;
the labels along a row differ, and a variable at its end lacks them all (`hasKind_extendRow`).

A substitution *respects* its variables when it gives each a type of its own kind. Respectful
substitutions keep kinds (`Ty.HasKind.subst`) and compose (`Subst.Respects.compose`), whatever
variables they share.

A `Valuation` is a respectful choice of a sorted type for every variable. It *absorbs* a
substitution when it makes no difference to apply the substitution first.
-/

namespace RowTyping

namespace Constraint

/-- What a variable with the constraint `d` stands for satisfies `c` as well. -/
def Within : Constraint → Constraint → Prop
  | free, free => True
  | lacks ls, lacks ms => ∀ l ∈ ls.toList, l ∈ ms
  | _, _ => False

instance : (c d : Constraint) → Decidable (c.Within d)
  | free, free => .isTrue trivial
  | lacks ls, lacks ms => inferInstanceAs (Decidable (∀ l ∈ ls.toList, l ∈ ms))
  | free, lacks _ => .isFalse id
  | lacks _, free => .isFalse id

theorem Within.refl (c : Constraint) : c.Within c := by
  cases c with
  | free => trivial
  | lacks ls => exact fun l hl => hl

theorem Within.trans {c d e : Constraint} (h : c.Within d) (h' : d.Within e) : c.Within e := by
  cases c with
  | free => cases d with
    | free => exact h'
    | lacks ms => exact h.elim
  | lacks ls => cases d with
    | free => exact h.elim
    | lacks ms => cases e with
      | free => exact h'.elim
      | lacks ns => exact fun l hl => h' l (h l hl)

theorem lacks_within_lacks {ls ms : Labels} :
    (lacks ls).Within (lacks ms) ↔ ∀ l, l ∈ ls → l ∈ ms := Iff.rfl

/-- A variable that may stand for rows is constrained. -/
theorem eq_lacks_of_within {ls : Labels} {c : Constraint} (h : (lacks ls).Within c) :
    c = lacks c.labels := by
  cases c with
  | free => exact h.elim
  | lacks ms => rfl

theorem eq_free_of_within {c : Constraint} (h : free.Within c) : c = free := by
  cases c with
  | free => rfl
  | lacks ms => exact h.elim

end Constraint

/-! ## The kind of a type -/

namespace Ty

/-- `t.HasKind .free`: a well-formed type. `t.HasKind (.lacks ls)`: a well-formed row that has no
label of `ls` and, if it is open, ends in a variable that lacks them too. -/
def HasKind : Ty → Constraint → Prop
  | var v, c => c.Within v.constraint
  | int, .free => True
  | bool, .free => True
  | fn a r, .free => a.HasKind .free ∧ r.HasKind .free
  | record r, .free => r.HasKind (.lacks .empty)
  | rowEmpty, .lacks _ => True
  | rowExtend l f t, .lacks ls =>
    l ∉ ls ∧ f.HasKind .free ∧ t.HasKind (.lacks (ls.insert l))
  | _, _ => False

/-- Kinds can be checked. -/
def decHasKind : (t : Ty) → (c : Constraint) → Decidable (t.HasKind c)
  | var v, c => inferInstanceAs (Decidable (c.Within v.constraint))
  | int, .free => .isTrue trivial
  | bool, .free => .isTrue trivial
  | fn a r, .free => @instDecidableAnd _ _ (a.decHasKind .free) (r.decHasKind .free)
  | record r, .free => r.decHasKind (.lacks .empty)
  | rowEmpty, .lacks _ => .isTrue trivial
  | rowExtend l f t, .lacks ls =>
    @instDecidableAnd (l ∉ ls) _ inferInstance
      (@instDecidableAnd _ _ (f.decHasKind .free) (t.decHasKind (.lacks (ls.insert l))))
  | int, .lacks _ => .isFalse id
  | bool, .lacks _ => .isFalse id
  | fn _ _, .lacks _ => .isFalse id
  | record _, .lacks _ => .isFalse id
  | rowEmpty, .free => .isFalse id
  | rowExtend _ _ _, .free => .isFalse id

instance (t : Ty) (c : Constraint) : Decidable (t.HasKind c) := t.decHasKind c

@[simp] theorem hasKind_var {v : TyVar} {c : Constraint} :
    (var v).HasKind c ↔ c.Within v.constraint := Iff.rfl

@[simp] theorem hasKind_fn {a r : Ty} :
    (fn a r).HasKind .free ↔ a.HasKind .free ∧ r.HasKind .free := Iff.rfl

@[simp] theorem hasKind_record {r : Ty} :
    (record r).HasKind .free ↔ r.HasKind (.lacks .empty) := Iff.rfl

@[simp] theorem hasKind_rowExtend {l : String} {f t : Ty} {ls : Labels} :
    (rowExtend l f t).HasKind (.lacks ls) ↔
      l ∉ ls ∧ f.HasKind .free ∧ t.HasKind (.lacks (ls.insert l)) := Iff.rfl

section Parts

variable {a r f t : Ty} {l : String} {c : Constraint}

theorem HasKind.of_fn (h : (fn a r).HasKind c) : a.HasKind .free ∧ r.HasKind .free := by
  cases c with
  | free => exact h
  | lacks ls => exact h.elim

theorem HasKind.of_record (h : (record r).HasKind c) : r.HasKind (.lacks .empty) := by
  cases c with
  | free => exact h
  | lacks ls => exact h.elim

theorem HasKind.eq_lacks (h : (rowExtend l f t).HasKind c) : ∃ ls, c = .lacks ls := by
  cases c with
  | free => exact h.elim
  | lacks ls => exact ⟨ls, rfl⟩

end Parts

/-- Every variable has the kind that its constraint names. -/
theorem hasKind_var_self (v : TyVar) : (var v).HasKind v.constraint := Constraint.Within.refl _

theorem HasKind.weaken {t : Ty} {c d : Constraint} (h : t.HasKind d) (hcd : c.Within d) :
    t.HasKind c := by
  cases c with
  | free => rwa [Constraint.eq_free_of_within hcd] at h
  | lacks ls =>
    rw [Constraint.eq_lacks_of_within hcd] at h hcd
    generalize d.labels = ms at h hcd
    induction t generalizing ls ms with
    | var v => exact hcd.trans h
    | rowExtend l f t _ iht =>
      obtain ⟨hl, hf, ht⟩ := h
      refine ⟨fun hl' => hl (hcd l hl'), hf, iht _ _ ht (Constraint.lacks_within_lacks.2 ?_)⟩
      intro m hm
      rw [OrdSet.mem_insert] at hm ⊢
      exact hm.imp id (hcd m)
    | _ => exact h

/-- A row is a row without any label of no labels. -/
theorem HasKind.row {t : Ty} {ls : Labels} (h : t.HasKind (.lacks ls)) :
    t.HasKind (.lacks .empty) :=
  h.weaken (Constraint.lacks_within_lacks.2 fun l hl => absurd hl (OrdSet.not_mem_empty l))

theorem insert_union (ls ms : Labels) (l : String) :
    (ls ∪ ms).insert l = ls.insert l ∪ ms.insert l :=
  OrdSet.ext fun m => by
    simp only [OrdSet.mem_insert, OrdSet.mem_union]
    constructor
    · rintro (h | h | h)
      · exact .inl (.inl h)
      · exact .inl (.inr h)
      · exact .inr (.inr h)
    · rintro ((h | h) | (h | h))
      · exact .inl h
      · exact .inr (.inl h)
      · exact .inl h
      · exact .inr (.inr h)

theorem HasKind.lacks_union {t : Ty} {ls ms : Labels} (h : t.HasKind (.lacks ls))
    (h' : t.HasKind (.lacks ms)) : t.HasKind (.lacks (ls ∪ ms)) := by
  induction t generalizing ls ms with
  | var v =>
    rw [hasKind_var] at h h' ⊢
    cases hv : v.constraint with
    | free => rw [hv] at h; exact h.elim
    | lacks ns =>
      rw [hv] at h h'
      exact fun l hl => (OrdSet.mem_union.1 hl).elim (h l) (h' l)
  | rowEmpty => trivial
  | rowExtend l f t _ iht =>
    refine ⟨fun hl => (OrdSet.mem_union.1 hl).elim h.1 h'.1, h.2.1, ?_⟩
    rw [insert_union]
    exact iht h.2.2 h'.2.2
  | _ => exact h.elim

/-- A row of a kind has no label that the kind excludes. -/
theorem HasKind.not_mem_of_rowLabels {t : Ty} {ls : Labels} (h : t.HasKind (.lacks ls))
    {l : String} (hl : l ∈ t.rowLabels) : l ∉ ls := by
  induction t generalizing ls with
  | rowExtend m f t _ iht =>
    rcases List.mem_cons.1 hl with rfl | hl
    · exact h.1
    · exact fun hm => iht h.2.2 hl (OrdSet.mem_insert.2 (.inr hm))
  | _ => cases hl

/-- The kind of a row, read off its fields and its end: the labels differ, none of them is
excluded, the fields have types, and the end excludes the labels in front of it. -/
theorem hasKind_extendRow {pre : List (String × Ty)} {t : Ty} {ls : Labels} :
    (extendRow pre t).HasKind (.lacks ls) ↔
      (pre.map Prod.fst).Nodup ∧ (∀ e ∈ pre, e.1 ∉ ls ∧ e.2.HasKind .free) ∧
        t.HasKind (.lacks (ls ∪ .ofList (pre.map Prod.fst))) := by
  induction pre generalizing ls with
  | nil =>
    have hls : ls ∪ OrdSet.ofList [] = ls := OrdSet.ext fun l => by simp
    simp [hls]
  | cons e pre ih =>
    have hls : ls.insert e.1 ∪ .ofList (pre.map Prod.fst) =
        ls ∪ OrdSet.ofList ((e :: pre).map Prod.fst) := OrdSet.ext fun l => by
      simp only [OrdSet.mem_union, OrdSet.mem_insert, OrdSet.mem_ofList, List.map_cons,
        List.mem_cons]
      rw [or_left_comm, or_assoc]
    rw [extendRow_cons, hasKind_rowExtend, ih, hls]
    simp only [OrdSet.mem_insert, not_or, List.map_cons, List.nodup_cons, List.mem_cons,
      forall_eq_or_imp]
    constructor
    · rintro ⟨he, hf, hn, hpre, ht⟩
      refine ⟨⟨fun hm => ?_, hn⟩, ⟨⟨he, hf⟩, fun a ha => ⟨(hpre a ha).1.2, (hpre a ha).2⟩⟩, ht⟩
      obtain ⟨a, ha, hae⟩ := List.mem_map.1 hm
      exact (hpre a ha).1.1 hae
    · rintro ⟨⟨hm, hn⟩, ⟨⟨he, hf⟩, hpre⟩, ht⟩
      refine ⟨he, hf, hn, fun a ha => ⟨⟨fun hae => ?_, (hpre a ha).1⟩, (hpre a ha).2⟩, ht⟩
      exact hm (hae ▸ List.mem_map_of_mem ha)

/-! ## Kinds do not depend on the order of fields -/

theorem insert_insert_comm (ls : Labels) (l m : String) :
    (ls.insert l).insert m = (ls.insert m).insert l :=
  OrdSet.ext fun k => by
    simp only [OrdSet.mem_insert]
    exact or_left_comm

theorem hasKind_rowExtend_swap {l m : String} {f g t : Ty} {ls : Labels} (h : l ≠ m) :
    (rowExtend l f (rowExtend m g t)).HasKind (.lacks ls) ↔
      (rowExtend m g (rowExtend l f t)).HasKind (.lacks ls) := by
  simp only [hasKind_rowExtend, OrdSet.mem_insert, not_or, insert_insert_comm ls l m]
  constructor
  · rintro ⟨hl, hf, ⟨-, hm⟩, hg, ht⟩
    exact ⟨hm, hg, ⟨h, hl⟩, hf, ht⟩
  · rintro ⟨hm, hg, ⟨-, hl⟩, hf, ht⟩
    exact ⟨hl, hf, ⟨Ne.symm h, hm⟩, hg, ht⟩

theorem hasKind_placeField {l : String} {f t : Ty} {ls : Labels} :
    (placeField l f t).HasKind (.lacks ls) ↔ (rowExtend l f t).HasKind (.lacks ls) := by
  induction t generalizing ls with
  | rowExtend m g u _ ihu =>
    by_cases hm : compare m l = .lt
    · have hne : m ≠ l := by
        rintro rfl
        simp at hm
      rw [placeField_behind hm, hasKind_rowExtend, ihu, ← hasKind_rowExtend,
        hasKind_rowExtend_swap hne]
    · rw [placeField_before hm]
  | _ => exact Iff.rfl

theorem not_hasKind_free_placeField {l : String} {f t : Ty} :
    ¬(placeField l f t).HasKind .free := by
  cases t with
  | rowExtend m g u =>
    by_cases hm : compare m l = .lt
    · rw [placeField_behind hm]; exact id
    · rw [placeField_before hm]; exact id
  | _ => exact id

/-- A reading with values of the right kinds has the kind of the type. -/
theorem HasKind.eval {φ : TyVar → Ty} (hφ : ∀ v, (φ v).HasKind v.constraint) {t : Ty}
    {c : Constraint} (h : t.HasKind c) : (t.eval φ).HasKind c := by
  induction t generalizing c with
  | var v => exact (hφ v).weaken h
  | fn a r iha ihr =>
    cases c with
    | free => exact ⟨iha h.1, ihr h.2⟩
    | lacks ls => exact h.elim
  | record r ih =>
    cases c with
    | free => exact ih (c := .lacks .empty) h
    | lacks ls => exact h.elim
  | rowExtend l f t ihf iht =>
    cases c with
    | free => exact h.elim
    | lacks ls => exact hasKind_placeField.2 ⟨h.1, ihf h.2.1, iht h.2.2⟩
  | _ => exact h

theorem hasKind_norm {t : Ty} {c : Constraint} : t.norm.HasKind c ↔ t.HasKind c := by
  refine ⟨fun h => ?_, fun h => h.eval hasKind_var_self⟩
  induction t generalizing c with
  | fn a r iha ihr =>
    cases c with
    | free => exact ⟨iha h.1, ihr h.2⟩
    | lacks ls => exact h.elim
  | record r ih =>
    cases c with
    | free => exact ih (c := .lacks .empty) h
    | lacks ls => exact h.elim
  | rowExtend l f t ihf iht =>
    cases c with
    | free => exact (not_hasKind_free_placeField h).elim
    | lacks ls =>
      obtain ⟨hl, hf, ht⟩ := hasKind_placeField.1 h
      exact ⟨hl, ihf hf, iht ht⟩
  | _ => exact h

end Ty

/-- Equivalent types have the same kinds. -/
theorem RowEquiv.hasKind {t t' : Ty} (h : RowEquiv t t') {c : Constraint} (ht : t.HasKind c) :
    t'.HasKind c := by
  rw [← Ty.hasKind_norm, ← h.norm_eq]
  exact Ty.hasKind_norm.2 ht

/-! ## Respectful substitutions -/

namespace Subst

/-- Each variable is given a type of its kind. -/
def Respects (s : Subst) : Prop := ∀ v t, s.get? v = some t → t.HasKind v.constraint

theorem Respects.app {s : Subst} (h : s.Respects) (v : TyVar) : (s.app v).HasKind v.constraint := by
  cases hv : s.get? v with
  | none =>
    rw [app_of_not_mem (OrderedMap.get?_eq_none_iff.1 hv)]
    exact Ty.hasKind_var_self v
  | some t =>
    rw [app_of_get? hv]
    exact h v t hv

theorem Respects.empty : Respects .empty := fun v t h => by cases h

theorem Respects.singleton {v : TyVar} {t : Ty} (h : t.HasKind v.constraint) :
    Respects (.singleton v t) := by
  intro u τ hu
  obtain ⟨rfl, rfl⟩ := OrderedMap.get?_singleton_eq_some hu
  exact h

theorem Respects.insert {s : Subst} (hs : s.Respects) {v : TyVar} {t : Ty}
    (h : t.HasKind v.constraint) : Respects (OrderedMap.insert s v t) := by
  intro u τ hu
  rw [OrderedMap.get?_insert] at hu
  split at hu
  · next he => subst he; cases hu; exact h
  · exact hs u τ hu

theorem Respects.filterKeys {s : Subst} (hs : s.Respects) (p : TyVar → Bool) :
    Respects (s.filterKeys p) := by
  intro u τ hu
  rw [OrderedMap.get?_filterKeys] at hu
  split at hu
  · exact hs u τ hu
  · cases hu

theorem Respects.tabulate {vs : List TyVar} {f : TyVar → Ty}
    (h : ∀ v ∈ vs, (f v).HasKind v.constraint) : (tabulate vs f).Respects := by
  intro u τ hu
  rw [get?_tabulate] at hu
  split at hu
  · next hm => cases hu; exact h u hm
  · cases hu

end Subst

/-- A respectful substitution keeps the kind of every type. -/
theorem Ty.HasKind.subst {s : Subst} (hs : s.Respects) {t : Ty} {c : Constraint}
    (h : t.HasKind c) : (t.subst s).HasKind c := by
  rw [← hasKind_norm, norm_subst]
  exact h.eval fun v => hasKind_norm.2 (hs.app v)

theorem Subst.Respects.compose {newer older : Subst} (hn : newer.Respects) (ho : older.Respects) :
    (newer.compose older).Respects := by
  intro v t h
  rcases get?_compose_eq_some h with h | ⟨t₀, h₀, rfl⟩
  · exact hn v t h
  · exact (ho v t₀ h₀).subst hn

/-! ## Valuations -/

/-- A value for every variable: a sorted type of the variable's kind. -/
@[ext]
structure Valuation where
  val : TyVar → Ty
  hasKind : ∀ v, (val v).HasKind v.constraint
  sorted : ∀ v, (val v).norm = val v

namespace Valuation

instance : CoeFun Valuation fun _ => TyVar → Ty := ⟨val⟩

/-- Every variable stands for itself. -/
def self : Valuation := ⟨.var, Ty.hasKind_var_self, fun _ => rfl⟩

/-- The values of what a substitution puts in the place of the variables. -/
def after (φ : Valuation) (s : Subst) (hs : s.Respects) : Valuation where
  val v := (s.app v).eval φ
  hasKind v := (hs.app v).eval φ.hasKind
  sorted _ := Ty.norm_eval φ.sorted _

@[simp] theorem self_apply (v : TyVar) : self v = .var v := rfl

@[simp] theorem after_apply (φ : Valuation) {s : Subst} (hs : s.Respects) (v : TyVar) :
    φ.after s hs v = (s.app v).eval φ := rfl

theorem eval_after (φ : Valuation) {s : Subst} (hs : s.Respects) (t : Ty) :
    t.eval (φ.after s hs) = (t.subst s).eval φ := (Ty.eval_subst φ s t).symm

open Classical in
/-- The values of `φ` for some of the variables, and those of `ψ` for the others. -/
noncomputable def glue (p : TyVar → Prop) (φ ψ : Valuation) : Valuation where
  val v := if p v then φ v else ψ v
  hasKind v := by
    split
    · exact φ.hasKind v
    · exact ψ.hasKind v
  sorted v := by
    split
    · exact φ.sorted v
    · exact ψ.sorted v

theorem glue_pos {p : TyVar → Prop} {v : TyVar} (h : p v) (φ ψ : Valuation) :
    glue p φ ψ v = φ v := if_pos h

theorem glue_neg {p : TyVar → Prop} {v : TyVar} (h : ¬p v) (φ ψ : Valuation) :
    glue p φ ψ v = ψ v := if_neg h

/-- Another value for one variable. -/
def set (φ : Valuation) (v : TyVar) (t : Ty) (hk : t.HasKind v.constraint) (hs : t.norm = t) :
    Valuation where
  val w := if w = v then t else φ w
  hasKind w := by
    split
    · next h => rw [h]; exact hk
    · exact φ.hasKind w
  sorted w := by
    split
    · exact hs
    · exact φ.sorted w

section Set

variable (φ : Valuation) {v : TyVar} {t : Ty} (hk : t.HasKind v.constraint) (hs : t.norm = t)

@[simp] theorem set_self : φ.set v t hk hs v = t := if_pos rfl

theorem set_of_ne {w : TyVar} (h : w ≠ v) : φ.set v t hk hs w = φ w := if_neg h

end Set

/-- A reading of types over finitely many variables is a substitution, up to the order of fields. -/
theorem exists_subst (φ : Valuation) (vs : List TyVar) :
    ∃ ρ : Subst, ρ.Respects ∧ ∀ t : Ty, t.Over (· ∈ vs) → (t.subst ρ).norm = t.eval φ := by
  refine ⟨.tabulate vs φ, .tabulate fun v _ => φ.hasKind v, fun t ht => ?_⟩
  rw [Ty.norm_subst]
  refine Ty.eval_congr fun v hv => ?_
  rw [Subst.app_tabulate, if_pos (ht v hv)]
  exact φ.sorted v

/-- Applying the substitution first makes no difference to the values. -/
def Absorbs (φ : Valuation) (s : Subst) : Prop := ∀ v, (s.app v).eval φ = φ v

theorem Absorbs.eval_subst {φ : Valuation} {s : Subst} (h : φ.Absorbs s) (t : Ty) :
    (t.subst s).eval φ = t.eval φ :=
  (Ty.eval_subst φ s t).trans (Ty.eval_congr fun v _ => h v)

theorem Absorbs.empty (φ : Valuation) : φ.Absorbs .empty := fun _ => rfl

theorem absorbs_of_entries {φ : Valuation} {s : Subst}
    (h : ∀ v t, s.get? v = some t → t.eval φ = φ v) : φ.Absorbs s := by
  intro v
  cases hv : s.get? v with
  | none =>
    rw [Subst.app_of_not_mem (OrderedMap.get?_eq_none_iff.1 hv)]
    rfl
  | some t =>
    rw [Subst.app_of_get? hv]
    exact h v t hv

theorem Absorbs.compose {φ : Valuation} {newer older : Subst} (hn : φ.Absorbs newer)
    (ho : φ.Absorbs older) : φ.Absorbs (newer.compose older) := by
  intro v
  rw [Subst.app_compose]
  split
  · exact hn v
  · rw [hn.eval_subst]
    exact ho v

/-- Absorption depends only on the values of the variables that the substitution mentions. -/
theorem Absorbs.congr {φ ψ : Valuation} {s : Subst} (h : φ.Absorbs s)
    (he : ∀ v, s.Mentions v → ψ v = φ v) : ψ.Absorbs s := by
  refine absorbs_of_entries fun v t hv => ?_
  rw [he v ⟨v, t, hv, .inl rfl⟩, ← h v, Subst.app_of_get? hv]
  exact Ty.eval_congr fun w hw => he w ⟨v, t, hv, .inr hw⟩

/-- `ψ` differs from `φ` at the variables `vs` at most, and absorbs the substitution. -/
structure Extends (φ : Valuation) (vs : List TyVar) (s : Subst) (ψ : Valuation) : Prop where
  agree : ∀ v, v ∉ vs → ψ v = φ v
  absorbs : ψ.Absorbs s

namespace Extends

variable {φ ψ χ : Valuation} {vs ws : List TyVar} {s s' : Subst}

theorem refl (φ : Valuation) : φ.Extends [] .empty φ := ⟨fun _ _ => rfl, .empty φ⟩

theorem eval_eq (h : φ.Extends vs s ψ) {t : Ty} (ht : ∀ v ∈ t.freeVars, v ∉ vs) :
    t.eval ψ = t.eval φ := Ty.eval_congr fun v hv => h.agree v (ht v hv)

theorem eval_subst (h : φ.Extends vs s ψ) {t : Ty} (ht : ∀ v ∈ t.freeVars, v ∉ vs) :
    (t.subst s).eval ψ = t.eval φ := (h.absorbs.eval_subst t).trans (h.eval_eq ht)

/-- A further extension keeps what was absorbed, as long as it leaves those variables alone. -/
theorem trans (h : φ.Extends vs s ψ) (h' : ψ.Extends ws s' χ) (hs : ∀ v, s.Mentions v → v ∉ ws) :
    φ.Extends (vs ++ ws) (s'.compose s) χ where
  agree v hv := by
    rw [List.mem_append, not_or] at hv
    exact (h'.agree v hv.2).trans (h.agree v hv.1)
  absorbs := h'.absorbs.compose (h.absorbs.congr fun v hv => h'.agree v (hs v hv))

end Extends

end Valuation

end RowTyping
