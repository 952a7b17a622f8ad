import RowTyping.Proofs.Kinding
import RowTyping.Proofs.Unify.Relation

/-!
# What constrained variables come to stand for

A unifier keeps what variables lack (`Unified.keepsLacks`): a variable that lacks some labels is
given a chain of fields without them, and if the chain is open, its end lacks them too. Nothing is
asked of the two types. Their rows may repeat labels, end in unconstrained variables or in types
that are no rows, and the run may issue variables that occur in them. Kinds do not help here; all
that counts is the spine of a row (`Ty.Lacking`).

A variable is bound in one of four places. Later steps only replace the ends of chains, and by
chains that lack no less (`Ty.Lacking.subst`); so substitutions that keep what variables lack
compose, whatever variables they share (`Subst.KeepsLacks.compose`).
-/

namespace RowTyping

/-! ## Spines -/

namespace Ty

/-- A chain of fields without the labels `ls`, which ends in the empty row or in a variable that
lacks them. The fields may have any types. -/
def Lacking (ls : Labels) : Ty → Prop
  | var w => (Constraint.lacks ls).Within w.constraint
  | rowEmpty => True
  | rowExtend l _ t => l ∉ ls ∧ t.Lacking ls
  | _ => False

theorem lacking_iff {ls : Labels} {t : Ty} :
    t.Lacking ls ↔ (∀ l ∈ t.rowLabels, l ∉ ls) ∧
      (t.rowEnd = rowEmpty ∨
        ∃ w ms, t.rowEnd = var w ∧ w.constraint = .lacks ms ∧ ∀ l, l ∈ ls → l ∈ ms) := by
  induction t with
  | var w =>
    constructor
    · intro h
      have hc := Constraint.eq_lacks_of_within h
      refine ⟨fun l hl => absurd hl List.not_mem_nil, .inr ⟨w, w.constraint.labels, rfl, hc, ?_⟩⟩
      rw [Lacking, hc] at h
      exact h
    · rintro ⟨-, h | ⟨w', ms, hw, hc, hls⟩⟩
      · cases h
      · cases hw
        rw [Lacking, hc]
        exact hls
  | rowEmpty => exact ⟨fun _ => ⟨fun l hl => absurd hl List.not_mem_nil, .inl rfl⟩, fun _ => trivial⟩
  | rowExtend m f t _ iht =>
    rw [Lacking, iht, rowLabels_rowExtend, rowEnd, List.forall_mem_cons, and_assoc]
  | _ =>
    refine ⟨False.elim, ?_⟩
    rintro ⟨-, h | ⟨w, ms, hw, -⟩⟩
    · cases h
    · cases hw

theorem Lacking.mono {ls ms : Labels} {t : Ty} (h : t.Lacking ms) (hls : ∀ l, l ∈ ls → l ∈ ms) :
    t.Lacking ls := by
  induction t with
  | var w => exact Constraint.Within.trans (Constraint.lacks_within_lacks.2 hls) h
  | rowExtend m f t _ iht => exact ⟨fun hm => h.1 (hls m hm), iht h.2⟩
  | _ => exact h

theorem lacking_extendRow {pre : List (String × Ty)} {t : Ty} {ls : Labels} :
    (extendRow pre t).Lacking ls ↔ (∀ l ∈ pre.map Prod.fst, l ∉ ls) ∧ t.Lacking ls := by
  induction pre with
  | nil => simp
  | cons e pre ih =>
    rw [extendRow_cons, Lacking, ih, List.map_cons, List.forall_mem_cons, and_assoc]

end Ty

/-! ## Substitutions that keep what variables lack -/

namespace Subst

/-- Each constrained variable is given a chain without the labels it lacks. -/
def KeepsLacks (s : Subst) : Prop :=
  ∀ v t, s.get? v = some t → ∀ ls, v.constraint = .lacks ls → t.Lacking ls

end Subst

theorem Ty.Lacking.subst {s : Subst} (hs : s.KeepsLacks) {t : Ty} {ls : Labels}
    (h : t.Lacking ls) : (t.subst s).Lacking ls := by
  induction t with
  | var w =>
    rw [subst_var]
    cases hw : s.get? w with
    | none =>
      rw [Subst.app_of_not_mem (OrderedMap.get?_eq_none_iff.1 hw)]
      exact h
    | some τ =>
      -- The end lacks at least `ls`, and so does what stands in its place.
      have hc := Constraint.eq_lacks_of_within h
      rw [Lacking, hc] at h
      rw [Subst.app_of_get? hw]
      exact (hs w τ hw _ hc).mono h
  | rowEmpty => trivial
  | rowExtend l f t _ iht => exact ⟨h.1, iht h.2⟩
  | _ => exact h.elim

namespace Subst.KeepsLacks

theorem empty : KeepsLacks .empty := by
  intro v t h
  cases h

theorem singleton {u : TyVar} {t : Ty} (h : ∀ ls, u.constraint = .lacks ls → t.Lacking ls) :
    KeepsLacks (.singleton u t) := by
  intro v τ hv
  obtain ⟨rfl, rfl⟩ := OrderedMap.get?_singleton_eq_some hv
  exact h

theorem singleton_of_free {u : TyVar} (hu : u.constraint = .free) (t : Ty) :
    KeepsLacks (.singleton u t) := by
  apply singleton
  intro ls hls
  rw [hu] at hls
  cases hls

theorem insert {s : Subst} (hs : s.KeepsLacks) {u : TyVar} {t : Ty}
    (h : ∀ ls, u.constraint = .lacks ls → t.Lacking ls) : KeepsLacks (OrderedMap.insert s u t) := by
  intro v τ hv
  rw [OrderedMap.get?_insert] at hv
  split at hv
  · next he => subst he; cases hv; exact h
  · exact hs v τ hv

/-- The newer substitution changes the ends of chains only, or overrides the older one. -/
theorem compose {newer older : Subst} (hn : newer.KeepsLacks) (ho : older.KeepsLacks) :
    (newer.compose older).KeepsLacks := by
  intro v t hv ls hc
  rcases get?_compose_eq_some hv with hv | ⟨t₀, ht₀, rfl⟩
  · exact hn v t hv ls hc
  · exact (ho v t₀ ht₀ ls hc).subst hn

end Subst.KeepsLacks

/-! ## Unifiers keep what variables lack -/

section

variable {cfg : Config} {n : Nat}

/-- A row variable stands for what lacks less. -/
theorem Config.rowVar_lacking {u : TyVar} {ms : Labels} (h : ∀ l, l ∈ u.labels → l ∈ ms)
    {ls : Labels} (hc : u.constraint = .lacks ls) : (Ty.var (cfg.rowVar n ms)).Lacking ls := by
  rw [TyVar.labels, hc] at h
  exact h

theorem Config.opening_keepsLacks {w : TyVar} {label : String} (hw : label ∉ w.labels) :
    (cfg.opening n w label).KeepsLacks := by
  refine .singleton fun ls hc => ⟨?_, ?_⟩
  · rw [TyVar.labels, hc] at hw
    exact hw
  · exact cfg.rowVar_lacking (fun l hl => OrdSet.mem_union.2 (.inl hl)) hc

theorem Binds.keepsLacks {u : TyVar} {t : Ty} {vs : List TyVar} {s : Subst}
    (h : Binds cfg n u t vs s) : s.KeepsLacks := by
  cases h with
  | type _ hc => exact .singleton_of_free hc _
  | @closed ls fields _ hc hd hls =>
    have ht : t = .extendRow fields .rowEmpty := (Ty.decompose_ok hd).1
    refine .singleton fun ms hms => ?_
    rw [hc] at hms
    cases hms
    rw [ht]
    exact Ty.lacking_extendRow.2 ⟨hls, trivial⟩
  | @opened ls fields w _ hc hd hls =>
    have ht : t = .extendRow fields (.var w) := (Ty.decompose_ok hd).1
    have hr : Subst.KeepsLacks (.singleton w (.var (cfg.rowVar n (ls ∪ w.labels)))) :=
      .singleton fun ms hms => cfg.rowVar_lacking (fun l hl => OrdSet.mem_union.2 (.inr hl)) hms
    intro v τ hv ms hms
    rcases Subst.get?_compose_eq_some hv with hv | ⟨t₀, ht₀, rfl⟩
    · exact hr v τ hv ms hms
    · -- The row lacks what `u` lacks only after its end was replaced.
      obtain ⟨rfl, rfl⟩ := OrderedMap.get?_singleton_eq_some ht₀
      rw [hc] at hms
      cases hms
      rw [ht, Ty.subst_extendRow, Ty.subst_var, Subst.app_singleton, if_pos rfl]
      refine Ty.lacking_extendRow.2 ⟨?_, cfg.rowVar_lacking (u := v) ?_ hc⟩
      · rw [List.map_map]
        exact hls
      · rw [TyVar.labels, hc]
        exact fun l hl => OrdSet.mem_union.2 (.inl hl)

theorem Unified.keepsLacks {t₁ t₂ : Ty} {vs : List TyVar} {s : Subst}
    (h : Unified cfg n t₁ t₂ vs s) : s.KeepsLacks := by
  induction h with
  | typeVars _ hu => exact .singleton_of_free hu _
  | rowVars =>
    refine .insert (.singleton fun ls hc => ?_) fun ls hc => ?_
    · exact cfg.rowVar_lacking (fun l hl => OrdSet.mem_union.2 (.inl hl)) hc
    · exact cfg.rowVar_lacking (fun l hl => OrdSet.mem_union.2 (.inr hl)) hc
  | bindLeft _ hb => exact hb.keepsLacks
  | bindRight _ hb => exact hb.keepsLacks
  | fn _ _ ih₁ ih₂ => exact ih₂.compose ih₁
  | record _ ih => exact ih
  | rowFound _ _ _ _ _ _ ih₁ ih₂ => exact ih₂.compose ih₁
  | rowOpened _ _ _ _ _ hw _ _ _ ih₁ ih₂ =>
    exact ih₂.compose (ih₁.compose (Config.opening_keepsLacks hw))
  | _ => exact .empty

end

/-- Whatever the stems, the number of variables issued before, the types and the bound on the depth
(`unify` takes `unifyDepth t₁ t₂`): if unification succeeds, a variable that lacks the labels `ls`
is bound to a chain of fields without them. The chain ends in the empty row or in a variable that
lacks `ls` too. -/
theorem unify_lacks (cfg : Config) (d : Nat) (st st' : RunState) (t₁ t₂ : Ty) (s : Subst)
    (h : unifyWithin d t₁ t₂ cfg st = .ok s st') (v : TyVar) (ls : Labels)
    (hv : v.constraint = .lacks ls) (t : Ty) (ht : s.get? v = some t) :
    (∀ l ∈ t.rowLabels, l ∉ ls) ∧
      (t.rowEnd = .rowEmpty ∨
        ∃ w ms, t.rowEnd = .var w ∧ w.constraint = .lacks ms ∧ ∀ l, l ∈ ls → l ∈ ms) := by
  have hu := ((unifyWithin_yields cfg d st.issued t₁ t₂).of_ok rfl h).1
  exact Ty.lacking_iff.1 (hu.keepsLacks v t ht ls hv)

/-- A variable that lacks `x` and has the name of the first row variable of a run. -/
def reissued : TyVar := ⟨"r0", .lacks (.singleton "x")⟩

/-- A function from `reissued` to a row. -/
def reissuedToRow : Ty := .fn (.var reissued) (.var ⟨"w", .lacks .empty⟩)

/-- A function between open rows. Its argument ends in the row above. -/
def openToOpen : Ty :=
  .fn (.rowExtend "y" .int (.var ⟨"w", .lacks .empty⟩))
    (.rowExtend "z" .bool (.var ⟨"q", .lacks .empty⟩))

/-- The run issues a variable that occurs in the types and was bound before. What it is bound to
last still lacks `x`. -/
theorem unify_lacks_reissued :
    reissued ∈ (unify reissuedToRow openToOpen).issuedBy {} {} ∧
      ∃ s st' t, unify reissuedToRow openToOpen {} {} = .ok s st' ∧ s.get? reissued = some t ∧
        (∀ l ∈ t.rowLabels, l ∉ OrdSet.singleton "x") ∧
        (t.rowEnd = .rowEmpty ∨ ∃ w ms, t.rowEnd = .var w ∧ w.constraint = .lacks ms ∧
          ∀ l, l ∈ OrdSet.singleton "x" → l ∈ ms) := by
  have hissued : reissued ∈ (unify reissuedToRow openToOpen).issuedBy {} {} := by decide +kernel
  have hrun : unify reissuedToRow openToOpen {} {} = .ok
      (.ofList [(reissued, .rowExtend "z" .bool (.var ⟨"r1", .lacks (.singleton "x")⟩)),
        (⟨"w", .lacks .empty⟩, .rowExtend "z" .bool (.var ⟨"r1", .lacks (.singleton "x")⟩)),
        (⟨"q", .lacks .empty⟩, .var ⟨"r1", .lacks (.singleton "x")⟩)]) { issued := 2 } := by
    rfl
  exact ⟨hissued, _, _, _, hrun, rfl, unify_lacks {} _ {} _ _ _ _ hrun reissued _ rfl _ rfl⟩

end RowTyping
