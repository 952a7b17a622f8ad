import RowTyping.Proofs.Unify.Relation

/-!
# The variables of a unifier

A unifier mentions only variables of the two types and variables that were issued on the way
(`Unified.over`). If the run can no longer issue a variable of the two types, then nothing
that was taken away comes back: no variable that the unifier binds occurs in one of its types
(`Unified.settled`). Types need not be well formed for this.
-/

namespace RowTyping

/-! ## Names -/

theorem Binds.namedFrom {cfg : Config} {n : Nat} {u : TyVar} {t : Ty} {vs : List TyVar} {s : Subst}
    (h : Binds cfg n u t vs s) : NamedFrom cfg.OwnStem n vs := by
  cases h with
  | type => trivial
  | closed => trivial
  | opened => exact ⟨cfg.rowVar_numbered n _, trivial⟩

theorem Unified.namedFrom {cfg : Config} {n : Nat} {t₁ t₂ : Ty} {vs : List TyVar} {s : Subst}
    (h : Unified cfg n t₁ t₂ vs s) : NamedFrom cfg.OwnStem n vs := by
  induction h with
  | rowVars => exact ⟨cfg.rowVar_numbered _ _, trivial⟩
  | bindLeft _ hb => exact hb.namedFrom
  | bindRight _ hb => exact hb.namedFrom
  | fn _ _ ih₁ ih₂ => exact ih₁.append ih₂
  | record _ ih => exact ih
  | rowFound _ _ _ _ _ _ ih₁ ih₂ => exact ih₁.append ih₂
  | rowOpened _ _ _ _ _ _ _ _ _ ih₁ ih₂ =>
    exact ⟨cfg.rowVar_numbered _ _, cfg.typeVar_numbered _, ih₁.append ih₂⟩
  | _ => trivial

theorem Refused.namedFrom {cfg : Config} {d n : Nat} {t₁ t₂ : Ty} {vs : List TyVar} {f : Fault}
    (h : Refused cfg d n t₁ t₂ vs f) : NamedFrom cfg.OwnStem n vs := by
  induction h with
  | fnArg _ ih => exact ih
  | fnRet h₁ _ ih => exact h₁.namedFrom.append ih
  | record _ ih => exact ih
  | rowShared => exact ⟨cfg.rowVar_numbered _ _, cfg.typeVar_numbered _, trivial⟩
  | foundField _ _ _ _ _ ih => exact ih
  | foundTail _ _ _ _ h₁ _ ih => exact h₁.namedFrom.append ih
  | openedField _ _ _ _ _ _ _ _ ih =>
    exact ⟨cfg.rowVar_numbered _ _, cfg.typeVar_numbered _, ih⟩
  | openedTail _ _ _ _ _ _ _ h₁ _ ih =>
    exact ⟨cfg.rowVar_numbered _ _, cfg.typeVar_numbered _, h₁.namedFrom.append ih⟩
  | _ => trivial

/-! ## Mentioned variables -/

section Over

variable {P : TyVar → Prop}

theorem Ty.over_extendRow {pre : List (String × Ty)} {t : Ty} :
    (Ty.extendRow pre t).Over P ↔ (∀ e ∈ pre, e.2.Over P) ∧ t.Over P := by
  induction pre with
  | nil => simp
  | cons e pre ih => simp [over_rowExtend, ih, and_assoc]

/-- A field may be taken out of a row. -/
theorem Ty.Over.without {pre : List (String × Ty)} {label : String} {f t : Ty}
    (h : (extendRow pre (rowExtend label f t)).Over P) : (extendRow pre t).Over P := by
  rw [over_extendRow, over_rowExtend] at h
  exact over_extendRow.2 ⟨h.1, h.2.2⟩

theorem Config.opening_over {cfg : Config} {n : Nat} {w : TyVar} {label : String} (hw : P w)
    (hr : P (cfg.rowVar n (w.labels ∪ .singleton label))) (ht : P (cfg.typeVar (n + 1))) :
    (cfg.opening n w label).Over P :=
  .singleton hw (Ty.over_rowExtend.2 ⟨Ty.over_var.2 ht, Ty.over_var.2 hr⟩)

end Over

theorem Ty.mem_freeVars_of_decompose {t : Ty} {fields : List (String × Ty)} {w : TyVar}
    (h : t.decompose = .ok ⟨fields, some w⟩) : w ∈ t.freeVars := by
  rw [(decompose_ok h).1, Row.toTy]
  exact (mem_freeVars_extendRow _).2 (.inr (mem_freeVars_var.2 rfl))

theorem Binds.over {cfg : Config} {n : Nat} {u : TyVar} {t : Ty} {vs : List TyVar} {s : Subst}
    (h : Binds cfg n u t vs s) {P : TyVar → Prop} (hu : P u) (ht : t.Over P)
    (hvs : ∀ v ∈ vs, P v) : s.Over P := by
  cases h with
  | type => exact .singleton hu ht
  | closed => exact .singleton hu ht
  | opened _ _ hd _ =>
    refine .compose (.singleton (ht _ (Ty.mem_freeVars_of_decompose hd)) ?_) (.singleton hu ht)
    exact Ty.over_var.2 (hvs _ (by simp))

/-- A unifier mentions only variables of the two types and issued ones. -/
theorem Unified.over {cfg : Config} {n : Nat} {t₁ t₂ : Ty} {vs : List TyVar} {s : Subst}
    (h : Unified cfg n t₁ t₂ vs s) {P : TyVar → Prop} (h₁ : t₁.Over P) (h₂ : t₂.Over P)
    (hvs : ∀ v ∈ vs, P v) : s.Over P := by
  induction h with
  | typeVars => exact .singleton (Ty.over_var.1 h₁) h₂
  | rowVars =>
    have hr := Ty.over_var.2 (hvs _ List.mem_cons_self)
    exact .insert (.singleton (Ty.over_var.1 h₁) hr) (Ty.over_var.1 h₂) hr
  | bindLeft _ hb => exact hb.over (Ty.over_var.1 h₁) h₂ hvs
  | bindRight _ hb => exact hb.over (Ty.over_var.1 h₂) h₁ hvs
  | fn _ _ ih₁ ih₂ =>
    rw [Ty.over_fn] at h₁ h₂
    have hs₁ := ih₁ h₁.1 h₂.1 fun v hv => hvs v (List.mem_append_left _ hv)
    exact (ih₂ (h₁.2.subst hs₁) (h₂.2.subst hs₁) fun v hv =>
      hvs v (List.mem_append_right _ hv)).compose hs₁
  | record _ ih => exact ih h₁ h₂ hvs
  | rowFound _ _ hrow _ _ _ ih₁ ih₂ =>
    rw [hrow, Ty.over_extendRow, Ty.over_rowExtend] at h₂
    rw [Ty.over_rowExtend] at h₁
    have hs₁ := ih₁ h₁.1 h₂.2.1 fun v hv => hvs v (List.mem_append_left _ hv)
    exact (ih₂ (h₁.2.subst hs₁) ((Ty.over_extendRow.2 ⟨h₂.1, h₂.2.2⟩).subst hs₁) fun v hv =>
      hvs v (List.mem_append_right _ hv)).compose hs₁
  | rowOpened _ _ hrow _ _ _ _ _ _ ih₁ ih₂ =>
    rw [hrow, Ty.over_extendRow, Ty.over_var] at h₂
    rw [Ty.over_rowExtend] at h₁
    simp only [List.mem_cons, List.mem_append, or_imp, forall_and, forall_eq] at hvs
    obtain ⟨hr, ht, hvs₁, hvs₂⟩ := hvs
    have hs₀ := Config.opening_over h₂.2 hr ht
    have hs := (ih₁ (h₁.1.subst hs₀) ((Ty.over_var.2 ht).subst hs₀) hvs₁).compose hs₀
    exact (ih₂ (h₁.2.subst hs)
      ((Ty.over_extendRow.2 ⟨h₂.1, Ty.over_var.2 hr⟩).subst hs) hvs₂).compose hs
  | _ => exact .empty

/-! ## Unifiers are solved -/

/-- The run can no longer issue a variable with this name. -/
def Config.Stale (cfg : Config) (n : Nat) (v : TyVar) : Prop := ¬v.Numbered cfg.OwnStem (n ≤ ·)

namespace Config

variable {cfg : Config} {n m : Nat} {v : TyVar}

theorem Stale.mono (h : cfg.Stale n v) (hnm : n ≤ m) : cfg.Stale m v :=
  fun hm => h (hm.mono (fun _ hs => hs) fun _ hk => Nat.le_trans hnm hk)

/-- What has been issued will not be issued again. -/
theorem stale_of_issued (hcfg : cfg.SingleStems) {vs : List TyVar}
    (hvs : NamedFrom cfg.OwnStem n vs) (hv : v ∈ vs) : cfg.Stale (n + vs.length) v := by
  intro hm
  obtain ⟨k, hk, hk'⟩ := (hvs.numbered hv).meet hcfg.ownStem hcfg.ownStem hm
  omega

/-- A run can issue no variable of a type that has only variables issued before. -/
theorem over_stale_of_issued (hcfg : cfg.SingleStems) {vs : List TyVar}
    (hvs : NamedFrom cfg.OwnStem n vs) {t : Ty} (ht : ∀ v ∈ t.freeVars.toList, v ∈ vs) :
    t.Over (cfg.Stale (n + vs.length)) := fun v hv => stale_of_issued hcfg hvs (ht v hv)

theorem Stale.not_issued (h : cfg.Stale n v) {vs : List TyVar}
    (hvs : NamedFrom cfg.OwnStem n vs) : v ∉ vs :=
  fun hv => h ((hvs.numbered hv).mono (fun _ hs => hs) fun _ hk => hk.1)

theorem Stale.ne_typeVar (h : cfg.Stale n v) (hnm : n ≤ m) : v ≠ cfg.typeVar m := by
  rintro rfl
  refine h ((cfg.typeVar_numbered m).mono (fun _ hs => hs) fun k hk => ?_)
  exact hk ▸ hnm

theorem Stale.ne_rowVar (h : cfg.Stale n v) (hnm : n ≤ m) {ls : Labels} : v ≠ cfg.rowVar m ls := by
  rintro rfl
  refine h ((cfg.rowVar_numbered m ls).mono (fun _ hs => hs) fun k hk => ?_)
  exact hk ▸ hnm

end Config

theorem Subst.Solved.singleton {u : TyVar} {t : Ty} (h : u ∉ t.freeVars) :
    Solved (.singleton u t) := by
  intro w τ hw v hv hk
  rw [OrderedMap.get?_singleton] at hw
  split at hw
  · cases hw
    have hvu : v = u := by simpa [OrderedMap.keys, OrderedMap.singleton] using hk
    exact h (hvu ▸ hv)
  · cases hw

/-- A solved substitution whose variables cannot be issued any more. -/
structure Settled (cfg : Config) (n : Nat) (s : Subst) : Prop where
  solved : s.Solved
  stale : s.Over (cfg.Stale n)

theorem Subst.Over.over_subst {cfg : Config} {n m : Nat} {s : Subst} (h : s.Over (cfg.Stale m))
    {t : Ty} (ht : t.Over (cfg.Stale n)) (hnm : n ≤ m) : (t.subst s).Over (cfg.Stale m) :=
  Ty.Over.subst (fun v hv => (ht v hv).mono hnm) h

/-- Unification behind a settled substitution does not touch what that one took away. -/
theorem Settled.disjoint {cfg : Config} {m : Nat} {a b : Ty} {vs : List TyVar} {s₁ s₂ : Subst}
    (h₁ : Settled cfg m s₁) (hu : Unified cfg m (a.subst s₁) (b.subst s₁) vs s₂) {v : TyVar}
    (hv : s₂.Mentions v) : v ∉ s₁.keys := by
  refine hu.over (P := (· ∉ s₁.keys)) ?_ ?_ ?_ v hv
  · exact fun v hv => h₁.solved.not_mem_keys hv
  · exact fun v hv => h₁.solved.not_mem_keys hv
  · exact fun v hv hk =>
      (h₁.stale v (Subst.mentions_of_mem_keys hk)).not_issued hu.namedFrom hv

theorem Settled.subst_compose {cfg : Config} {m : Nat} {a b : Ty} {vs : List TyVar}
    {s₁ s₂ : Subst} (h₁ : Settled cfg m s₁)
    (hu : Unified cfg m (a.subst s₁) (b.subst s₁) vs s₂) (t : Ty) :
    t.subst (s₂.compose s₁) = (t.subst s₁).subst s₂ :=
  Ty.subst_compose (fun _ hv => h₁.disjoint hu (Subst.mentions_of_mem_keys hv)) t

theorem Settled.andThen {cfg : Config} {m k : Nat} {a b : Ty} {vs : List TyVar} {s₁ s₂ : Subst}
    (h₁ : Settled cfg m s₁) (hu : Unified cfg m (a.subst s₁) (b.subst s₁) vs s₂)
    (h₂ : Settled cfg k s₂) (hmk : m ≤ k) : Settled cfg k (s₂.compose s₁) where
  solved := h₂.solved.compose h₁.solved fun _ hv => h₁.disjoint hu hv
  stale := h₂.stale.compose fun v hv => (h₁.stale v hv).mono hmk

section Settled

variable {cfg : Config} (hcfg : cfg.SingleStems)

theorem Binds.solved {n : Nat} {u : TyVar} {t : Ty} {vs : List TyVar} {s : Subst}
    (h : Binds cfg n u t vs s) (hu : cfg.Stale n u) (ht : t.Over (cfg.Stale n)) : s.Solved := by
  cases h with
  | type hut => exact .singleton hut
  | closed hut => exact .singleton hut
  | @opened ls fields w hut _ hd _ =>
    have hwt := Ty.mem_freeVars_of_decompose hd
    have hw : w ≠ cfg.rowVar n (ls ∪ w.labels) := (ht w hwt).ne_rowVar (Nat.le_refl n)
    refine .compose (.singleton (by simpa using hw)) (.singleton hut) fun v hv hk => ?_
    have hvu : v = u := by simpa [OrderedMap.keys, OrderedMap.singleton] using hk
    subst hvu
    have hne : (Subst.Over (fun x => x ≠ v) (.singleton w (.var (cfg.rowVar n (ls ∪ w.labels))))) :=
      .singleton (fun he => hut (he ▸ hwt))
        (Ty.over_var.2 (hu.ne_rowVar (Nat.le_refl n)).symm)
    exact hne v hv rfl

theorem rowVars_solved {n : Nat} {u v : TyVar} (hu : cfg.Stale n u) (hv : cfg.Stale n v)
    {ls : Labels} : Subst.Solved ((OrderedMap.singleton u (.var (cfg.rowVar n ls))).insert v
      (.var (cfg.rowVar n ls))) := by
  intro x τ hx y hy hk
  have hτ : τ = .var (cfg.rowVar n ls) := by
    rw [OrderedMap.get?_insert, OrderedMap.get?_singleton] at hx
    split at hx
    · exact (Option.some.inj hx).symm
    · split at hx
      · exact (Option.some.inj hx).symm
      · cases hx
  subst hτ
  obtain rfl := Ty.mem_freeVars_var.1 hy
  have hmem : cfg.rowVar n ls = u ∨ cfg.rowVar n ls = v := by
    rw [OrderedMap.keys_insert] at hk
    split at hk
    · exact .inl (by simpa [OrderedMap.keys, OrderedMap.singleton] using hk)
    · simpa [OrderedMap.keys, OrderedMap.singleton] using hk
  rcases hmem with he | he
  · exact hu.ne_rowVar (Nat.le_refl n) he.symm
  · exact hv.ne_rowVar (Nat.le_refl n) he.symm

include hcfg in
theorem Config.opening_issued (n : Nat) (w : TyVar) (label : String) :
    cfg.Stale (n + 2) (cfg.rowVar n (w.labels ∪ .singleton label)) ∧
      cfg.Stale (n + 2) (cfg.typeVar (n + 1)) := by
  have hvs : NamedFrom cfg.OwnStem n
      [cfg.rowVar n (w.labels ∪ .singleton label), cfg.typeVar (n + 1)] :=
    ⟨cfg.rowVar_numbered n _, cfg.typeVar_numbered _, trivial⟩
  exact ⟨cfg.stale_of_issued hcfg hvs (by simp), cfg.stale_of_issued hcfg hvs (by simp)⟩

include hcfg in
theorem Config.opening_settled {n : Nat} {w : TyVar} (hw : cfg.Stale n w) (label : String) :
    Settled cfg (n + 2) (cfg.opening n w label) where
  solved := by
    refine .singleton fun h => ?_
    rcases Ty.mem_freeVars_rowExtend.1 h with h | h
    · exact hw.ne_typeVar (Nat.le_succ n) (Ty.mem_freeVars_var.1 h)
    · exact hw.ne_rowVar (Nat.le_refl n) (Ty.mem_freeVars_var.1 h)
  stale := by
    obtain ⟨hr, ht⟩ := cfg.opening_issued hcfg n w label
    exact cfg.opening_over (hw.mono (Nat.le_add_right ..)) hr ht

include hcfg in
/-- The rest of an opened row cannot be issued any more. -/
theorem Config.opened_stale {n : Nat} {pre : List (String × Ty)}
    (hpre : ∀ e ∈ pre, e.2.Over (cfg.Stale n)) (w : TyVar) (label : String) :
    (Ty.extendRow pre (.var (cfg.rowVar n (w.labels ∪ .singleton label)))).Over
      (cfg.Stale (n + 2)) :=
  Ty.over_extendRow.2 ⟨fun e he v hv => (hpre e he v hv).mono (Nat.le_add_right ..),
    Ty.over_var.2 (cfg.opening_issued hcfg n w label).1⟩

include hcfg in
/-- After unification, what the unifier mentions cannot be issued any more. -/
theorem Unified.stale {n : Nat} {t₁ t₂ : Ty} {vs : List TyVar} {s : Subst}
    (h : Unified cfg n t₁ t₂ vs s) (h₁ : t₁.Over (cfg.Stale n)) (h₂ : t₂.Over (cfg.Stale n)) :
    s.Over (cfg.Stale (n + vs.length)) :=
  h.over (fun v hv => (h₁ v hv).mono (Nat.le_add_right ..))
    (fun v hv => (h₂ v hv).mono (Nat.le_add_right ..)) fun _ hv =>
      cfg.stale_of_issued hcfg h.namedFrom hv

include hcfg in
/-- Types of which no variable can be issued any more lead to such types. -/
theorem Leads.stale {n m : Nat} {t₁ t₂ u₁ u₂ : Ty} (h : Leads cfg n t₁ t₂ m u₁ u₂)
    (h₁ : t₁.Over (cfg.Stale n)) (h₂ : t₂.Over (cfg.Stale n)) :
    u₁.Over (cfg.Stale m) ∧ u₂.Over (cfg.Stale m) := by
  cases h with
  | fnArg => exact ⟨(Ty.over_fn.1 h₁).1, (Ty.over_fn.1 h₂).1⟩
  | fnRet hu =>
    rw [Ty.over_fn] at h₁ h₂
    have hs := hu.stale hcfg h₁.1 h₂.1
    exact ⟨hs.over_subst h₁.2 (Nat.le_add_right ..), hs.over_subst h₂.2 (Nat.le_add_right ..)⟩
  | record => exact ⟨h₁, h₂⟩
  | foundField =>
    rw [Ty.over_extendRow, Ty.over_rowExtend] at h₂
    exact ⟨(Ty.over_rowExtend.1 h₁).1, h₂.2.1⟩
  | foundTail _ hu =>
    have hrest := h₂.without
    rw [Ty.over_extendRow, Ty.over_rowExtend] at h₂
    rw [Ty.over_rowExtend] at h₁
    have hs := hu.stale hcfg h₁.1 h₂.2.1
    exact ⟨hs.over_subst h₁.2 (Nat.le_add_right ..), hs.over_subst hrest (Nat.le_add_right ..)⟩
  | @openedField label _ _ _ w =>
    rw [Ty.over_extendRow, Ty.over_var] at h₂
    have hs₀ := (cfg.opening_settled hcfg h₂.2 label).stale
    have hγ := Ty.over_var.2 (cfg.opening_issued hcfg n w label).2
    exact ⟨hs₀.over_subst (Ty.over_rowExtend.1 h₁).1 (Nat.le_add_right ..),
      hs₀.over_subst hγ (Nat.le_refl _)⟩
  | @openedTail label _ _ _ w _ _ _ _ hu =>
    rw [Ty.over_extendRow, Ty.over_var] at h₂
    rw [Ty.over_rowExtend] at h₁
    -- First the opening, then the fields.
    have hs₀ := (cfg.opening_settled hcfg h₂.2 label).stale
    have hγ := hs₀.over_subst (Ty.over_var.2 (cfg.opening_issued hcfg n w label).2) (Nat.le_refl _)
    have hs₁ := hu.stale hcfg (hs₀.over_subst h₁.1 (Nat.le_add_right ..)) hγ
    have hs := hs₁.compose fun v hv => (hs₀ v hv).mono (Nat.le_add_right ..)
    exact ⟨hs.over_subst h₁.2 (by omega),
      hs.over_subst (cfg.opened_stale hcfg h₂.1 w label) (Nat.le_add_right ..)⟩

include hcfg in
/-- Unifiers are solved, unless the run issues a variable of the two types anew. -/
theorem Unified.settled {n : Nat} {t₁ t₂ : Ty} {vs : List TyVar} {s : Subst}
    (h : Unified cfg n t₁ t₂ vs s) (h₁ : t₁.Over (cfg.Stale n)) (h₂ : t₂.Over (cfg.Stale n)) :
    Settled cfg (n + vs.length) s := by
  refine ⟨?_, h.stale hcfg h₁ h₂⟩
  induction h with
  | typeVars hne => exact .singleton (by simpa using hne)
  | rowVars => exact rowVars_solved (Ty.over_var.1 h₁) (Ty.over_var.1 h₂)
  | bindLeft _ hb => exact hb.solved (Ty.over_var.1 h₁) h₂
  | bindRight _ hb => exact hb.solved (Ty.over_var.1 h₂) h₁
  | fn hu₁ hu₂ ih₁ ih₂ =>
    obtain ⟨ha₁, ha₂⟩ := Leads.fnArg.stale hcfg h₁ h₂
    obtain ⟨hr₁, hr₂⟩ := (Leads.fnRet hu₁).stale hcfg h₁ h₂
    have hs₁ : Settled _ _ _ := ⟨ih₁ ha₁ ha₂, hu₁.stale hcfg ha₁ ha₂⟩
    exact (hs₁.andThen hu₂ ⟨ih₂ hr₁ hr₂, hu₂.stale hcfg hr₁ hr₂⟩ (Nat.le_add_right ..)).solved
  | record _ ih => exact ih h₁ h₂
  | rowFound _ _ hrow hl hu₁ hu₂ ih₁ ih₂ =>
    subst hrow
    obtain ⟨hf₁, hf₂⟩ := (Leads.foundField hl).stale hcfg h₁ h₂
    obtain ⟨hr₁, hr₂⟩ := (Leads.foundTail hl hu₁).stale hcfg h₁ h₂
    have hs₁ : Settled _ _ _ := ⟨ih₁ hf₁ hf₂, hu₁.stale hcfg hf₁ hf₂⟩
    exact (hs₁.andThen hu₂ ⟨ih₂ hr₁ hr₂, hu₂.stale hcfg hr₁ hr₂⟩ (Nat.le_add_right ..)).solved
  | @rowOpened n label _ _ _ _ w _ _ _ _ _ _ hrow _ hl hw _ hu₁ hu₂ ih₁ ih₂ =>
    subst hrow
    obtain ⟨hf₁, hf₂⟩ := (Leads.openedField hl hw).stale hcfg h₁ h₂
    obtain ⟨hr₁, hr₂⟩ := (Leads.openedTail hl hw hu₁).stale hcfg h₁ h₂
    have hs₀ := cfg.opening_settled hcfg (Ty.over_var.1 (Ty.over_extendRow.1 h₂).2) label
    have hs := hs₀.andThen hu₁ ⟨ih₁ hf₁ hf₂, hu₁.stale hcfg hf₁ hf₂⟩ (Nat.le_add_right ..)
    exact (hs.andThen hu₂ ⟨ih₂ hr₁ hr₂, hu₂.stale hcfg hr₁ hr₂⟩ (Nat.le_add_right ..)).solved
  | _ => exact .empty

end Settled

/-! ## Whole runs -/

/-- With stems of one character, a run that can issue none of the variables of the two types
returns a solved substitution, which mentions only variables of the types and issued ones. So
applying it twice is applying it once, and it leaves alone what has none of these variables. -/
theorem unify_frame (cfg : Config) (hcfg : cfg.SingleStems) (st st' : RunState) (t₁ t₂ : Ty)
    (h₁ : t₁.Over (cfg.Stale st.issued)) (h₂ : t₂.Over (cfg.Stale st.issued)) (s : Subst)
    (h : unify t₁ t₂ cfg st = .ok s st') :
    Issues cfg.trace st ((unify t₁ t₂).issuedBy cfg st) st' ∧
      s.Over (fun v => v ∈ t₁.freeVars ∨ v ∈ t₂.freeVars ∨ v ∈ (unify t₁ t₂).issuedBy cfg st) ∧
      s.Solved ∧ (∀ t : Ty, (t.subst s).subst s = t.subst s) ∧
      ∀ t : Ty, t.Over (fun v => v ∉ t₁.freeVars ∧ v ∉ t₂.freeVars ∧
        v ∉ (unify t₁ t₂).issuedBy cfg st) → t.subst s = t := by
  obtain ⟨hu, hissued⟩ := (unifyWithin_yields cfg (unifyDepth t₁ t₂) st.issued t₁ t₂).of_ok rfl h
  have hover := hu.over
    (P := fun v => v ∈ t₁.freeVars ∨ v ∈ t₂.freeVars ∨ v ∈ (unify t₁ t₂).issuedBy cfg st)
    (fun _ hv => .inl hv) (fun _ hv => .inr (.inl hv)) fun _ hv => .inr (.inr hv)
  have hsolved := (hu.settled hcfg h₁ h₂).solved
  refine ⟨hissued, hover, hsolved, hsolved.subst_subst, fun t ht => Ty.subst_eq_self ?_⟩
  intro v hv hk
  obtain ⟨hv₁, hv₂, hvs⟩ := ht v hv
  rcases hover v (Subst.mentions_of_mem_keys hk) with h | h | h
  · exact hv₁ h
  · exact hv₂ h
  · exact hvs h

/-- The row `x : a0`, which ends in an unconstrained variable. -/
def openAnyhow : Ty := .rowExtend "x" (.var ⟨"a0", .free⟩) (.var ⟨"a1", .free⟩)

/-- A row with a record `y`, which ends in a variable that lacks `y`. -/
def openWithoutY : Ty :=
  .rowExtend "y" (.record (.var ⟨"a0", .free⟩)) (.var ⟨"r2", .lacks (.singleton "y")⟩)

theorem unify_frame_open :
    Config.SingleStems {} ∧ openAnyhow.Over (Config.Stale {} 3) ∧
      openWithoutY.Over (Config.Stale {} 3) ∧
      ∃ s st', unify openAnyhow openWithoutY {} { issued := 3 } = .ok s st' ∧ s.keys.length = 3 ∧
        s.Over (fun v => v ∈ openAnyhow.freeVars ∨ v ∈ openWithoutY.freeVars ∨
          v ∈ (unify openAnyhow openWithoutY).issuedBy {} { issued := 3 }) ∧ s.Solved ∧
        (∀ t : Ty, (t.subst s).subst s = t.subst s) ∧
        (Ty.record (.var ⟨"r2", .lacks .empty⟩)).subst s = .record (.var ⟨"r2", .lacks .empty⟩) := by
  have hcfg : Config.SingleStems {} := ⟨rfl, rfl⟩
  have hvs : NamedFrom (Config.OwnStem {}) 0
      [⟨"a0", .free⟩, ⟨"a1", .free⟩, ⟨"r2", .lacks (.singleton "y")⟩] :=
    ⟨⟨_, 0, .inl rfl, rfl, rfl⟩, ⟨_, 1, .inl rfl, rfl, rfl⟩, ⟨_, 2, .inr rfl, rfl, rfl⟩, trivial⟩
  have h₁ : openAnyhow.Over (Config.Stale {} 3) := Config.over_stale_of_issued hcfg hvs (by decide)
  have h₂ : openWithoutY.Over (Config.Stale {} 3) :=
    Config.over_stale_of_issued hcfg hvs (by decide)
  obtain ⟨-, hover, hsolved, htwice, hrest⟩ :=
    unify_frame {} hcfg { issued := 3 } _ openAnyhow openWithoutY h₁ h₂ _ rfl
  refine ⟨hcfg, h₁, h₂, _, _, rfl, by decide +kernel, hover, hsolved, htwice, hrest _ ?_⟩
  exact Ty.over_var.2 (by decide +kernel)

end RowTyping
