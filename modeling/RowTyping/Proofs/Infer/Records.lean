import Mathlib.Data.List.Forall2
import RowTyping.Proofs.Infer.Application
import RowTyping.Proofs.Infer.Inlining

/-!
# Record programs compute their fields

A record is built by extending the empty record field by field (`Expr.buildRecord`). In an
environment of closed schemes its type is the closed record of the types of the fields, in order,
with the variables of each field renamed apart from those of the others (`Ty.SameFields`). Selection
and restriction find a field wherever it stands, and a label that is extended twice is noticed where
the extension would repeat it.

Every step is the application of a record operation to a record whose type is known. The operations
are unified with that type once and for all (`infer_fieldOp_ends`, `infer_extension_ends`), and the
record is built by induction on its fields.
-/

namespace RowTyping

open InferM

/-! ## Programs and their fields -/

/-- The program that extends the empty record by the given fields, the last one first. -/
def Expr.buildRecord : List (String × Expr) → Expr
  | [] => .prim .emptyRecord
  | (l, e) :: es => .app (.app (.prim (.extend l)) e) (buildRecord es)

/-- The fields have the same labels and types in the same order, each type with its variables
renamed, and no two of them share a variable. -/
structure Ty.SameFields (ts fs : List (String × Ty)) : Prop where
  renamed : List.Forall₂ (fun e e' => e'.1 = e.1 ∧ ∃ ρ : Renaming, e'.2 = e.2.rename ρ) ts fs
  apart : fs.Pairwise fun e e' => ∀ v ∈ e.2.freeVars, v ∉ e'.2.freeVars

/-- Wherever it is inferred in a run with these stems, the expression has the type, up to the names
of its variables. -/
def InfersTo (cfg : Config) (Γ : Env) (e : Expr) (t : Ty) : Prop :=
  ∀ n, ∃ vs s, ∃ ρ : Renaming, Ends cfg (infer Γ e) n vs (.ok (s, t.rename ρ))

/-- The type that an expression has in one run is the one that it has in every run. -/
theorem infersTo_of_typeOf {cfg cfg' : Config} (hcfg : cfg.SingleStems) (hcfg' : cfg'.SingleStems)
    {Γ : Env} (hΓ : Γ.Closed) {e : Expr} {t : Ty} {st st' : RunState}
    (h : typeOf Γ e cfg' st = .ok t st') : InfersTo cfg Γ e t := by
  obtain ⟨vs, r, -, hrun⟩ := infer_yields cfg' st.issued Γ e
  obtain ⟨st'', h', -⟩ := typeOf_ends hcfg' hΓ.over hrun cfg'.trace st rfl
  cases r with
  | error f => cases h.symm.trans h'
  | ok p =>
    obtain ⟨rfl, -⟩ := EStateM.Result.ok.inj (h.symm.trans h')
    exact (realizes_generalize hcfg' hΓ hrun hcfg).ends

theorem Ty.StandsFor.renamed {t t' : Ty} {ρ : Renaming} (h : (t.rename ρ).StandsFor t') :
    ∃ ρ' : Renaming, t' = t.rename ρ' := by
  generalize hr : t.rename ρ = τ at h
  cases h with
  | refl => exact ⟨ρ, hr.symm⟩
  | @var u w hc =>
    cases t with
    | var v =>
      obtain rfl := Ty.var.inj hr
      refine ⟨.swap v w (hc.trans (ρ.constraint v)), congrArg Ty.var ?_⟩
      exact (Equiv.swap_apply_left v w).symm
    | _ => cases hr

theorem Ty.mem_freeVars_closedRow {fs : List (String × Ty)} {v : TyVar} :
    v ∈ (extendRow fs .rowEmpty).freeVars ↔ ∃ e ∈ fs, v ∈ e.2.freeVars := by
  simp [mem_freeVars_extendRow]

/-- The labels and the variables of a closed row are those of one field and of the other fields. -/
theorem Ty.closedRow_split {l : String} {f : Ty} {pre post : List (String × Ty)}
    (hn : ((pre ++ (l, f) :: post).map Prod.fst).Nodup) :
    l ∉ (pre ++ post).map Prod.fst ∧ ((pre ++ post).map Prod.fst).Nodup ∧
      ∀ v, v ∈ (extendRow (pre ++ (l, f) :: post) rowEmpty).freeVars ↔
        v ∈ f.freeVars ∨ v ∈ (extendRow (pre ++ post) rowEmpty).freeVars := by
  have hperm : (pre ++ (l, f) :: post).Perm ((l, f) :: (pre ++ post)) := List.perm_middle
  obtain ⟨hl, hn⟩ := List.nodup_cons.1 ((hperm.map Prod.fst).nodup_iff.1 hn)
  refine ⟨hl, hn, fun v => ?_⟩
  simp only [mem_freeVars_closedRow, hperm.mem_iff, List.mem_cons, exists_eq_or_imp]

namespace Ty.SameFields

variable {ts fs : List (String × Ty)}

theorem nil : SameFields [] [] := ⟨.nil, .nil⟩

theorem cons {l : String} {t t' : Ty} (h : SameFields ts fs) (ht : ∃ ρ : Renaming, t' = t.rename ρ)
    (hapart : ∀ v ∈ t'.freeVars, v ∉ (extendRow fs .rowEmpty).freeVars) :
    SameFields ((l, t) :: ts) ((l, t') :: fs) := by
  refine ⟨.cons ⟨rfl, ht⟩ h.renamed, List.pairwise_cons.2 ⟨fun e he v hv hm => ?_, h.apart⟩⟩
  exact hapart v hv (mem_freeVars_closedRow.2 ⟨e, he, hm⟩)

theorem filter (h : SameFields ts fs) (p : String → Bool) :
    SameFields (ts.filter fun e => p e.1) (fs.filter fun e => p e.1) where
  renamed := by
    refine List.rel_filter (fun e e' he => ?_) h.renamed
    show p e.1 = true ↔ p e'.1 = true
    rw [he.1]
  apart := h.apart.filter _

theorem exists_field (h : SameFields ts fs) {l : String} {t : Ty} (ht : (l, t) ∈ ts) :
    ∃ ρ : Renaming, (l, t.rename ρ) ∈ fs := by
  have hr := h.renamed
  clear h
  induction hr with
  | nil => cases ht
  | @cons e e' _ _ he _ ih =>
    rcases List.mem_cons.1 ht with rfl | ht
    · obtain ⟨hl, ρ, hρ⟩ := he
      refine ⟨ρ, List.mem_cons.2 (.inl ?_)⟩
      exact Prod.ext hl.symm hρ.symm
    · obtain ⟨ρ, hρ⟩ := ih ht
      exact ⟨ρ, List.mem_cons_of_mem _ hρ⟩

/-- With distinct labels, the fields are taken apart at one of them. -/
theorem split (h : SameFields ts fs) (hn : (fs.map Prod.fst).Nodup) {l : String} {t : Ty}
    (ht : (l, t) ∈ ts) :
    ∃ pre f post, fs = pre ++ (l, f) :: post ∧ (∃ ρ : Renaming, f = t.rename ρ) ∧
      (∀ v ∈ (extendRow (pre ++ post) .rowEmpty).freeVars, v ∉ f.freeVars) ∧
      SameFields (ts.filter (·.1 ≠ l)) (pre ++ post) := by
  obtain ⟨ρ, hf⟩ := h.exists_field ht
  obtain ⟨pre, post, rfl⟩ := List.append_of_mem hf
  refine ⟨pre, _, post, rfl, ⟨ρ, rfl⟩, fun v hv hvf => ?_, ?_⟩
  · obtain ⟨hpre, hpost, hcross⟩ := List.pairwise_append.1 h.apart
    obtain ⟨e, he, hve⟩ := mem_freeVars_closedRow.1 hv
    rcases List.mem_append.1 he with he | he
    · exact hcross e he _ List.mem_cons_self v hve hvf
    · exact (List.pairwise_cons.1 hpost).1 e he v hvf hve
  · obtain ⟨hl, -, -⟩ := closedRow_split hn
    have hkeep : ∀ e ∈ pre ++ post, decide (e.1 ≠ l) = true := fun e he =>
      decide_eq_true fun hel => hl (hel ▸ List.mem_map_of_mem he)
    have hrest := h.filter fun m => m ≠ l
    rwa [List.filter_append, List.filter_cons_of_neg (by simp), ← List.filter_append,
      List.filter_eq_self.2 hkeep] at hrest

end Ty.SameFields

/-! ## Record operations -/

section Operations

variable {cfg : Config} {n : Nat} {Γ : Env}

/-- The type of an operation on records is made of two new variables, for a field and for the rest
of the row. -/
def recordOp (l : String) (T : Ty → Ty → Ty) : InferM Ty := do
  let a := Ty.var (← freshType)
  let r := Ty.var (← freshRow (.singleton l))
  return T a r

theorem Prim.infer_select (l : String) : (select l).infer =
    recordOp l fun a r => .fn (.record (.rowExtend l a r)) a := rfl

theorem Prim.infer_restrict (l : String) : (restrict l).infer =
    recordOp l fun a r => .fn (.record (.rowExtend l a r)) (.record r) := rfl

theorem Prim.infer_extend (l : String) : (extend l).infer =
    recordOp l fun a r => .fn a (.fn (.record r) (.record (.rowExtend l a r))) := rfl

theorem infer_recordOp_ends (cfg : Config) (n : Nat) (Γ : Env) {p : Prim} {l : String}
    {T : Ty → Ty → Ty} (hp : p.infer = recordOp l T) :
    Ends cfg (infer Γ (.prim p)) n [cfg.typeVar n, cfg.rowVar (n + 1) (.singleton l)]
      (.ok (.empty, T (.var (cfg.typeVar n)) (.var (cfg.rowVar (n + 1) (.singleton l))))) := by
  have hop : Ends cfg p.infer n [cfg.typeVar n, cfg.rowVar (n + 1) (.singleton l)]
      (.ok (T (.var (cfg.typeVar n)) (.var (cfg.rowVar (n + 1) (.singleton l))))) := by
    rw [hp]
    exact Ends.freshType.bind_ok ((Ends.freshRow _).map fun r => T (.var (cfg.typeVar n)) (.var r))
  exact .trace_bind rfl (hop.map fun t => ((.empty : Subst), t))

theorem Ty.isProper_openField (l : String) (a r : TyVar) :
    (rowExtend l (.var a) (.var r)).IsProper :=
  isProper_of_nodup (List.nodup_singleton l) (.inr ⟨r, rfl⟩)

theorem Ty.isProper_closedRow {fs : List (String × Ty)} (hn : (fs.map Prod.fst).Nodup) :
    (extendRow fs .rowEmpty).IsProper := ⟨_, decompose_toTy (r := ⟨fs, none⟩) hn⟩

/-- A record type with one field of new type and a new rest is unified with a closed record that
has the field. The variable of the field comes to stand for its type, and the rest for the other
fields. -/
theorem unifyWithin_field_ends {l : String} {a r : TyVar} {pre post : List (String × Ty)} {f : Ty}
    (ha : a.constraint = .free) (hr : r.constraint = .lacks (.singleton l))
    (hn : ((pre ++ (l, f) :: post).map Prod.fst).Nodup)
    (hnew : ∀ v ∈ [a, r], cfg.Stale n v ∧
      v ∉ (Ty.extendRow (pre ++ (l, f) :: post) .rowEmpty).freeVars)
    (hrest : (Ty.extendRow (pre ++ post) .rowEmpty).Over fun v => cfg.Stale n v ∧ v ∉ f.freeVars) :
    ∃ vs s, (∀ d, Ends cfg (unifyWithin (d + 3) (.record (.rowExtend l (.var a) (.var r)))
        (.recordOf (pre ++ (l, f) :: post) .rowEmpty)) n vs (.ok s)) ∧
      f.StandsFor (s.app a) ∧ s.app r = .extendRow (pre ++ post) .rowEmpty := by
  obtain ⟨hl, hn', hfree⟩ := Ty.closedRow_split hn
  simp only [hfree, not_or] at hnew
  obtain ⟨hsa, haf, ha'⟩ := hnew a (by simp)
  obtain ⟨hsr, hrf, hr'⟩ := hnew r (by simp)
  have hra : r ≠ a := by
    intro he
    rw [he, ha] at hr
    cases hr
  -- The unifier of the field has to do with the field only.
  obtain ⟨vs, s₁, hu, hstands⟩ := unifyWithin_newVar_left cfg n ha haf
  have hkeep : ∀ v, cfg.Stale n v → v ≠ a → v ∉ f.freeVars → ¬s₁.Mentions v := fun v hs hv hf =>
    unifyWithin_not_mentions (hu 0) hs (fun hm => hv (Ty.mem_freeVars_var.1 hm)) hf
  have hmr : ¬s₁.Mentions r := hkeep r hsr hra hrf
  have hrest₁ : (Ty.extendRow (pre ++ post) .rowEmpty).subst s₁ =
      .extendRow (pre ++ post) .rowEmpty := by
    refine Ty.subst_eq_self fun v hv hk => ?_
    exact hkeep v (hrest v hv).1 (fun he => ha' (he ▸ hv)) (hrest v hv).2
      (Subst.mentions_of_mem_keys hk)
  refine ⟨vs ++ [], Subst.compose (.singleton r (.extendRow (pre ++ post) .rowEmpty)) s₁,
    fun d => unifyWithin_record_ends ?_, ?_, ?_⟩
  · have hbind : Ends cfg (unifyWithin (d + 1) ((Ty.var r).subst s₁)
        ((Ty.extendRow pre (.extendRow post .rowEmpty)).subst s₁)) (n + vs.length) []
        (.ok (.singleton r (.extendRow (pre ++ post) .rowEmpty))) := by
      have hends := unifyWithin_closedRow_ends cfg d (n + vs.length) hr hn' hr'
      rw [if_neg hl] at hends
      rwa [Ty.subst_var, Subst.app_of_not_mentions hmr, ← Ty.extendRow_append, hrest₁]
    have hrow := Ty.isProper_closedRow hn
    rw [Ty.extendRow_append] at hrow ⊢
    exact unifyWithin_found_ends (Ty.isProper_openField l a r) hrow (fun h => hl (by simp [h]))
      (hu d) hbind
  · rw [Subst.app_singleton_compose hmr, if_neg (Ne.symm hra)]
    exact hstands
  · rw [Subst.app_singleton_compose hmr, if_pos rfl]

section Apply

variable (hcfg : cfg.SingleStems) (hΓ : Γ.Closed) {p : Prim} {l : String} {R : Expr}
  {vs₂ : List TyVar} {s₂ : Subst} {fs : List (String × Ty)}

include hcfg hΓ

/-- The variables of an operation do not occur in the type of what it is applied to. Neither they
nor the variables of that type are issued again. -/
theorem recordOp_apart {t : Ty} (hR : Ends cfg (infer Γ R) (n + 2) vs₂ (.ok (s₂, t))) :
    (∀ v ∈ [cfg.typeVar n, cfg.rowVar (n + 1) (.singleton l)],
      cfg.Stale (n + 2 + vs₂.length + 1) v ∧ v ∉ t.freeVars) ∧
      t.Over (cfg.Stale (n + 2 + vs₂.length + 1)) := by
  have hi : Inferred Env.generalize cfg (n + 2) Γ R vs₂ s₂ t := (infer_yields ..).of_ends_ok hR
  have hvs : NamedFrom SingleStem n [cfg.typeVar n, cfg.rowVar (n + 1) (.singleton l)] :=
    ⟨cfg.typeVar_single hcfg n, (cfg.rowVar_numbered (n + 1) _).mono hcfg.ownStem fun _ hk => hk,
      trivial⟩
  have ht : t.Over (· ∈ vs₂) := (hi.over hΓ.over fun _ hv => hv).2
  refine ⟨fun v hv => ?_, fun v hv => ?_⟩
  · have hpast : v.Past (n + 2) := TyVar.past_of_issued hvs hv
    refine ⟨(hpast.mono ?_).stale hcfg, fun hm => hpast.not_issued (hi.namedFrom hcfg) (ht v hm)⟩
    omega
  · exact (((hi.past hcfg hΓ.over).2 v hv).mono (Nat.le_succ _)).stale hcfg

/-- An operation on a field is applied to a closed record that has the field. -/
theorem infer_fieldOp_ends {q : Ty → Ty → Ty}
    (hq : ∀ a r s, (q (.var a) (.var r)).subst s = q (s.app a) (s.app r))
    (hp : p.infer = recordOp l fun a r => .fn (.record (.rowExtend l a r)) (q a r))
    {pre post : List (String × Ty)} {f : Ty}
    (hR : Ends cfg (infer Γ R) (n + 2) vs₂
      (.ok (s₂, .recordOf (pre ++ (l, f) :: post) .rowEmpty)))
    (hn : ((pre ++ (l, f) :: post).map Prod.fst).Nodup)
    (hf : ∀ v ∈ (Ty.extendRow (pre ++ post) .rowEmpty).freeVars, v ∉ f.freeVars) :
    ∃ vs s f' t, Ends cfg (infer Γ (.app (.prim p) R)) n vs (.ok (s, t)) ∧ f.StandsFor f' ∧
      (q f' (.extendRow (pre ++ post) .rowEmpty)).StandsFor t := by
  have hprim := infer_recordOp_ends cfg n Γ hp
  obtain ⟨hnew, hold⟩ := recordOp_apart (l := l) hcfg hΓ hR
  obtain ⟨-, -, hfree⟩ := Ty.closedRow_split hn
  obtain ⟨vs₃, s₃, hu, hfield, hrest⟩ := unifyWithin_field_ends (cfg.typeVar_constraint n)
    (cfg.rowVar_constraint (n + 1) (.singleton l)) hn hnew
    fun v hv => ⟨hold v ((hfree v).2 (.inr hv)), hf v hv⟩
  obtain ⟨vs, s, t, hend, ht⟩ := infer_fnApp_ends hcfg hΓ hprim hR hu
  rw [hq, hrest] at ht
  exact ⟨vs, s, _, t, hend, hfield, ht⟩

/-- An operation on a field fails on a closed record that does not have the field. -/
theorem infer_fieldOp_missing {q : Ty → Ty → Ty}
    (hp : p.infer = recordOp l fun a r => .fn (.record (.rowExtend l a r)) (q a r))
    (hR : Ends cfg (infer Γ R) (n + 2) vs₂ (.ok (s₂, .recordOf fs .rowEmpty)))
    (hn : (fs.map Prod.fst).Nodup) (hl : l ∉ fs.map Prod.fst) :
    ∃ vs, Ends cfg (infer Γ (.app (.prim p) R)) n vs (.error (.infer (.labelNotFound l))) := by
  have hprim := infer_recordOp_ends cfg n Γ hp
  exact infer_fnApp_error hcfg hΓ hprim hR fun d => unifyWithin_record_ends
    (unifyWithin_missing_ends (Ty.isProper_openField l _ _) (Ty.isProper_closedRow hn) hl)

/-- An extension by a field expects any record without the label and adds the field's type. -/
theorem infer_extendBy_ends {e : Expr} {t : Ty} (he : InfersTo cfg Γ e t) :
    ∃ vs s r t', Ends cfg (infer Γ (.app (.prim (.extend l)) e)) n vs
        (.ok (s, .fn (.record (.var r)) (.record (.rowExtend l t' (.var r))))) ∧
      r.constraint = .lacks (.singleton l) ∧ r ∉ t'.freeVars ∧
      ∃ ρ : Renaming, t' = t.rename ρ := by
  have hprim := infer_recordOp_ends cfg n Γ (Prim.infer_extend l)
  obtain ⟨vs₂, s₂, ρ, h₂⟩ := he (n + 2)
  obtain ⟨hnew, -⟩ := recordOp_apart (l := l) hcfg hΓ h₂
  obtain ⟨-, ha⟩ := hnew (cfg.typeVar n) (by simp)
  obtain ⟨hsr, hr⟩ := hnew (cfg.rowVar (n + 1) (.singleton l)) (by simp)
  have hra : cfg.rowVar (n + 1) (.singleton l) ∉ (Ty.var (cfg.typeVar n)).freeVars := by
    intro hm
    cases congrArg TyVar.constraint (Ty.mem_freeVars_var.1 hm)
  obtain ⟨vs₃, s₃, hu, hstands⟩ := unifyWithin_newVar_left cfg (n + 2 + vs₂.length + 1)
    (cfg.typeVar_constraint n) ha
  have hmr := unifyWithin_not_mentions (hu 0) hsr hra hr
  obtain ⟨vs, s, t', hend, ht'⟩ := infer_fnApp_ends hcfg hΓ hprim h₂ fun d => hu (d + 2)
  replace ht' : Ty.StandsFor
      (.fn (.record (s₃.app _)) (.record (.rowExtend l (s₃.app _) (s₃.app _)))) t' := ht'
  rw [Subst.app_of_not_mentions hmr] at ht'
  cases ht'
  exact ⟨vs, s, _, _, hend, rfl, Subst.not_mem_freeVars_of_not_mentions hmr hra, hstands.renamed⟩

section Extension

variable {F : Expr} {vs₁ : List TyVar} {s₁ : Subst} {r : TyVar} {t : Ty}
  (hF : Ends cfg (infer Γ F) n vs₁
    (.ok (s₁, .fn (.record (.var r)) (.record (.rowExtend l t (.var r))))))
  (hr : r.constraint = .lacks (.singleton l))
  (hR : Ends cfg (infer Γ R) (n + vs₁.length) vs₂ (.ok (s₂, .recordOf fs .rowEmpty)))
  (hn : (fs.map Prod.fst).Nodup)

include hF hr hR hn

/-- A closed record without the label is extended at its front. -/
theorem infer_extension_ends (ht : r ∉ t.freeVars) (hl : l ∉ fs.map Prod.fst) :
    ∃ vs s, Ends cfg (infer Γ (.app F R)) n vs (.ok (s, .recordOf ((l, t) :: fs) .rowEmpty)) := by
  have hrow : r ∉ (Ty.extendRow fs .rowEmpty).freeVars := (infer_apart hcfg hΓ hF hR (by simp)).1
  have hbind := fun d => unifyWithin_closedRow_ends cfg d (n + vs₁.length + vs₂.length + 1) hr hn
    hrow
  simp only [if_neg hl] at hbind
  obtain ⟨vs, s, t', hend, ht'⟩ :=
    infer_fnApp_ends hcfg hΓ hF hR fun d => unifyWithin_record_ends (hbind (d + 1))
  have hresult : (Ty.record (.rowExtend l t (.var r))).subst
      (.singleton r (.extendRow fs .rowEmpty)) = .recordOf ((l, t) :: fs) .rowEmpty := by
    show Ty.record (.rowExtend l (t.subst _) (Subst.app _ r)) = _
    rw [Ty.subst_singleton_eq_self ht, Subst.app_singleton, if_pos rfl]
    rfl
  rw [hresult] at ht'
  cases ht'
  exact ⟨vs, s, hend⟩

/-- A closed record that has the label cannot be extended by it. -/
theorem infer_extension_repeated (hl : l ∈ fs.map Prod.fst) :
    ∃ vs, Ends cfg (infer Γ (.app F R)) n vs
      (.error (.infer (.duplicateLabels (.singleton l)))) := by
  have hrow : r ∉ (Ty.extendRow fs .rowEmpty).freeVars := (infer_apart hcfg hΓ hF hR (by simp)).1
  have hbind := fun d => unifyWithin_closedRow_ends cfg d (n + vs₁.length + vs₂.length + 1) hr hn
    hrow
  simp only [if_pos hl] at hbind
  exact infer_fnApp_error hcfg hΓ hF hR fun d => unifyWithin_record_ends (hbind (d + 1))

end Extension

end Apply

end Operations

/-! ## Building records -/

section Build

variable {cfg : Config} (hcfg : cfg.SingleStems) {Γ : Env} (hΓ : Γ.Closed)
  {es : List (String × Expr)} {ts : List (String × Ty)}
  (hes : List.Forall₂ (fun e t => t.1 = e.1 ∧ InfersTo cfg Γ e.2 t.2) es ts)

include hcfg hΓ hes

/-- With distinct labels, a record is built of fields of the given types. -/
theorem infer_buildRecord_ends (hn : (es.map Prod.fst).Nodup) (n : Nat) :
    ∃ vs s fs, Ends cfg (infer Γ (.buildRecord es)) n vs (.ok (s, .recordOf fs .rowEmpty)) ∧
      Ty.SameFields ts fs ∧ fs.map Prod.fst = es.map Prod.fst := by
  induction hes generalizing n with
  | nil => exact ⟨[], .empty, [], .trace_bind rfl (.pure _), .nil, rfl⟩
  | @cons e t es ts he hes ih =>
    obtain ⟨l, e⟩ := e
    obtain ⟨l', t⟩ := t
    obtain ⟨rfl, he⟩ := he
    obtain ⟨hl, hn⟩ := List.nodup_cons.1 hn
    obtain ⟨vs₁, s₁, r, t', hF, hr, hrt, ht'⟩ := infer_extendBy_ends hcfg hΓ (l := l') (n := n) he
    obtain ⟨vs₂, s₂, fs, hR, hfs, hlabels⟩ := ih hn (n + vs₁.length)
    rw [← hlabels] at hl hn
    obtain ⟨vs, s, hend⟩ := infer_extension_ends hcfg hΓ hF hr hR hn hrt hl
    refine ⟨vs, s, _, hend, hfs.cons ht' fun v hv => ?_, congrArg (l' :: ·) hlabels⟩
    exact (infer_apart hcfg hΓ hF hR (by simp [hv])).1

/-- With repeated labels, the record fails at the last field whose label occurs again behind it. -/
theorem infer_buildRecord_repeated (hn : ¬(es.map Prod.fst).Nodup) :
    ∃ pre l e post, es = pre ++ (l, e) :: post ∧ l ∈ post.map Prod.fst ∧
      (post.map Prod.fst).Nodup ∧ ∀ n, ∃ vs, Ends cfg (infer Γ (.buildRecord es)) n vs
        (.error (.infer (.duplicateLabels (.singleton l)))) := by
  induction hes with
  | nil => exact absurd .nil hn
  | @cons e t es ts he hes ih =>
    obtain ⟨l, e⟩ := e
    obtain ⟨l', t⟩ := t
    obtain ⟨rfl, he⟩ := he
    by_cases hn' : (es.map Prod.fst).Nodup
    · have hl : l' ∈ es.map Prod.fst := by
        by_contra hl
        exact hn (List.nodup_cons.2 ⟨hl, hn'⟩)
      refine ⟨[], l', e, es, rfl, hl, hn', fun n => ?_⟩
      obtain ⟨vs₁, s₁, r, t', hF, hr, -, -⟩ := infer_extendBy_ends hcfg hΓ (l := l') (n := n) he
      obtain ⟨vs₂, s₂, fs, hR, -, hlabels⟩ :=
        infer_buildRecord_ends hcfg hΓ hes hn' (n + vs₁.length)
      rw [← hlabels] at hl hn'
      exact infer_extension_repeated hcfg hΓ hF hr hR hn' hl
    · obtain ⟨pre, m, d, post, rfl, hm, hpost, hfail⟩ := ih hn'
      refine ⟨(l', e) :: pre, m, d, post, rfl, hm, hpost, fun n => ?_⟩
      obtain ⟨vs₁, s₁, r, t', hF, -, -, -⟩ := infer_extendBy_ends hcfg hΓ (l := l') (n := n) he
      obtain ⟨vs₂, hR⟩ := hfail (n + vs₁.length)
      exact ⟨_, infer_appArg_ends hΓ hF hR⟩

section Fields

variable (hn : (es.map Prod.fst).Nodup) {l : String}

include hn

section Present

variable {t : Ty} (ht : (l, t) ∈ ts)

include ht

/-- Selection gives the type of the field. -/
theorem infersTo_select : InfersTo cfg Γ (.app (.prim (.select l)) (.buildRecord es)) t := by
  intro n
  obtain ⟨vs₂, s₂, fs, hR, hfs, hlabels⟩ := infer_buildRecord_ends hcfg hΓ hes hn (n + 2)
  rw [← hlabels] at hn
  obtain ⟨pre, f, post, rfl, ⟨ρ, rfl⟩, hf, -⟩ := hfs.split hn ht
  obtain ⟨vs, s, f', t', hend, hf', ht'⟩ := infer_fieldOp_ends hcfg hΓ (q := fun a _ => a)
    (fun _ _ _ => rfl) (Prim.infer_select l) hR hn hf
  obtain ⟨ρ', rfl⟩ := (hf'.trans ht').renamed
  exact ⟨vs, s, ρ', hend⟩

/-- Restriction leaves the other fields. -/
theorem infer_restrict_ends (n : Nat) :
    ∃ vs s fs, Ends cfg (infer Γ (.app (.prim (.restrict l)) (.buildRecord es))) n vs
      (.ok (s, .recordOf fs .rowEmpty)) ∧ Ty.SameFields (ts.filter (·.1 ≠ l)) fs := by
  obtain ⟨vs₂, s₂, fs, hR, hfs, hlabels⟩ := infer_buildRecord_ends hcfg hΓ hes hn (n + 2)
  rw [← hlabels] at hn
  obtain ⟨pre, f, post, rfl, -, hf, hrest⟩ := hfs.split hn ht
  obtain ⟨vs, s, f', t', hend, -, ht'⟩ := infer_fieldOp_ends hcfg hΓ (q := fun _ r => .record r)
    (fun _ _ _ => rfl) (Prim.infer_restrict l) hR hn hf
  cases ht'
  exact ⟨vs, s, _, hend, hrest⟩

end Present

/-- Neither finds a field that is not there. -/
theorem infer_fieldOp_notFound (hl : l ∉ es.map Prod.fst) {p : Prim}
    (hp : p ∈ [Prim.select l, .restrict l]) (n : Nat) :
    ∃ vs, Ends cfg (infer Γ (.app (.prim p) (.buildRecord es))) n vs
      (.error (.infer (.labelNotFound l))) := by
  obtain ⟨vs₂, s₂, fs, hR, -, hlabels⟩ := infer_buildRecord_ends hcfg hΓ hes hn (n + 2)
  rw [← hlabels] at hn hl
  simp only [List.mem_cons, List.not_mem_nil, or_false] at hp
  rcases hp with rfl | rfl
  · exact infer_fieldOp_missing hcfg hΓ (Prim.infer_select l) hR hn hl
  · exact infer_fieldOp_missing hcfg hΓ (Prim.infer_restrict l) hR hn hl

end Fields

end Build

/-- What is inferred is the type of the expression. -/
theorem typeOf_of_infer_ends {cfg : Config} (hcfg : cfg.SingleStems) {Γ : Env} (hΓ : Γ.Closed)
    {e : Expr} {st : RunState} {vs : List TyVar} {r : Except Fault (Subst × Ty)}
    (h : Ends cfg (infer Γ e) st.issued vs r) :
    ∃ st', typeOf Γ e cfg st = ending (r.map Prod.snd) st' := by
  obtain ⟨st', hst, -⟩ := typeOf_ends hcfg hΓ.over h cfg.trace st rfl
  exact ⟨st', hst⟩

/-- Record programs compute their fields. Let each of the expressions `es` have a type, in a run of
its own. If their labels are distinct, the record of them has exactly these fields in this order,
selection gives the type of a field, restriction gives the record of the others, and both fail for
any other label. If labels repeat, the record fails at the last field whose label occurs again
behind it. -/
theorem typeOf_buildRecord (Γ : Env) (hΓ : Γ.Closed) (cfg : Config) (hcfg : cfg.SingleStems)
    (st : RunState) (es : List (String × Expr)) (ts : List (String × Ty))
    (hes : List.Forall₂ (fun e t => t.1 = e.1 ∧ ∃ cfg' st₁ st₂, Config.SingleStems cfg' ∧
      typeOf Γ e.2 cfg' st₁ = .ok t.2 st₂) es ts) :
    ((es.map Prod.fst).Nodup →
      (∃ fs st', typeOf Γ (.buildRecord es) cfg st = .ok (.recordOf fs .rowEmpty) st' ∧
        Ty.SameFields ts fs) ∧
      (∀ l t, (l, t) ∈ ts →
        (∃ ρ st', typeOf Γ (.app (.prim (.select l)) (.buildRecord es)) cfg st =
          .ok (Ty.rename ρ t) st') ∧
        ∃ fs st', typeOf Γ (.app (.prim (.restrict l)) (.buildRecord es)) cfg st =
          .ok (.recordOf fs .rowEmpty) st' ∧ Ty.SameFields (ts.filter (·.1 ≠ l)) fs) ∧
      ∀ l, l ∉ es.map Prod.fst → ∀ p ∈ [Prim.select l, .restrict l],
        ∃ st', typeOf Γ (.app (.prim p) (.buildRecord es)) cfg st =
          .error (.infer (.labelNotFound l)) st') ∧
    (¬(es.map Prod.fst).Nodup →
      ∃ pre l e post, es = pre ++ (l, e) :: post ∧ l ∈ post.map Prod.fst ∧
        (post.map Prod.fst).Nodup ∧ ∃ st', typeOf Γ (.buildRecord es) cfg st =
          .error (.infer (.duplicateLabels (.singleton l))) st') := by
  have hes : List.Forall₂ (fun e t => t.1 = e.1 ∧ InfersTo cfg Γ e.2 t.2) es ts := by
    refine hes.imp fun e t he => ⟨he.1, ?_⟩
    obtain ⟨-, cfg', st₁, st₂, hcfg', h⟩ := he
    exact infersTo_of_typeOf hcfg hcfg' hΓ h
  refine ⟨fun hn => ⟨?_, fun l t ht => ⟨?_, ?_⟩, fun l hl p hp => ?_⟩, fun hn => ?_⟩
  · obtain ⟨vs, s, fs, hend, hfs, -⟩ := infer_buildRecord_ends hcfg hΓ hes hn st.issued
    obtain ⟨st', hst⟩ := typeOf_of_infer_ends hcfg hΓ hend
    exact ⟨fs, st', hst, hfs⟩
  · obtain ⟨vs, s, ρ, hend⟩ := infersTo_select hcfg hΓ hes hn ht st.issued
    exact ⟨ρ, typeOf_of_infer_ends hcfg hΓ hend⟩
  · obtain ⟨vs, s, fs, hend, hfs⟩ := infer_restrict_ends hcfg hΓ hes hn ht st.issued
    obtain ⟨st', hst⟩ := typeOf_of_infer_ends hcfg hΓ hend
    exact ⟨fs, st', hst, hfs⟩
  · obtain ⟨vs, hend⟩ := infer_fieldOp_notFound hcfg hΓ hes hn hl hp st.issued
    exact typeOf_of_infer_ends hcfg hΓ hend
  · obtain ⟨pre, l, e, post, hsplit, hl, hpost, hfail⟩ := infer_buildRecord_repeated hcfg hΓ hes hn
    obtain ⟨vs, hend⟩ := hfail st.issued
    exact ⟨pre, l, e, post, hsplit, hl, hpost, typeOf_of_infer_ends hcfg hΓ hend⟩

/-- The type of a selection in a run of its own. -/
def selectorType : Ty :=
  .fn (.record (.rowExtend "x" (.var ⟨"a0", .free⟩) (.var ⟨"r1", .lacks (.singleton "x")⟩)))
    (.var ⟨"a0", .free⟩)

/-- Three fields. The types that the first two have on their own share the variable `a0`. -/
def sharedNames : List (String × Expr) :=
  [("x", .var "id"), ("y", .prim (.select "x")), ("w", .prim (.int 1))]

/-- The types of the three fields on their own. -/
def sharedTypes : List (String × Ty) :=
  [("x", .fn (.var ⟨"a0", .free⟩) (.var ⟨"a0", .free⟩)), ("y", selectorType), ("w", .int)]

theorem typeOf_buildRecord_sharedNames :
    clashingIdentity.Closed ∧ Config.SingleStems ⟨"t", "s", false⟩ ∧
      (sharedNames.map Prod.fst).Nodup ∧ ("y", selectorType) ∈ sharedTypes ∧
      (∃ fs st', typeOf clashingIdentity (.buildRecord sharedNames) ⟨"t", "s", false⟩
          { issued := 4 } = .ok (.recordOf fs .rowEmpty) st' ∧ Ty.SameFields sharedTypes fs) ∧
      (∃ ρ st', typeOf clashingIdentity (.app (.prim (.select "y")) (.buildRecord sharedNames))
        ⟨"t", "s", false⟩ { issued := 4 } = .ok (selectorType.rename ρ) st') ∧
      (∃ st', typeOf clashingIdentity (.app (.prim (.restrict "z")) (.buildRecord sharedNames))
        ⟨"t", "s", false⟩ { issued := 4 } = .error (.infer (.labelNotFound "z")) st') ∧
      ∃ pre l e post, ("y", .prim (.bool true)) :: sharedNames = pre ++ (l, e) :: post ∧
        l ∈ post.map Prod.fst ∧ (post.map Prod.fst).Nodup ∧
        ∃ st', typeOf clashingIdentity (.buildRecord (("y", .prim (.bool true)) :: sharedNames))
          ⟨"t", "s", false⟩ {} = .error (.infer (.duplicateLabels (.singleton l))) st' := by
  have hΓ : clashingIdentity.Closed := by decide
  have hcfg : Config.SingleStems ⟨"t", "s", false⟩ := ⟨rfl, rfl⟩
  have hown : Config.SingleStems {} := ⟨rfl, rfl⟩
  have hn : (sharedNames.map Prod.fst).Nodup := by decide
  have hy : ("y", selectorType) ∈ sharedTypes := List.mem_cons_of_mem _ List.mem_cons_self
  have hes : List.Forall₂ (fun e t => t.1 = e.1 ∧ ∃ cfg st st', Config.SingleStems cfg ∧
      typeOf clashingIdentity e.2 cfg st = .ok t.2 st') sharedNames sharedTypes :=
    .cons ⟨rfl, {}, {}, _, hown, rfl⟩ (.cons ⟨rfl, {}, {}, _, hown, rfl⟩
      (.cons ⟨rfl, {}, {}, _, hown, rfl⟩ .nil))
  obtain ⟨hdistinct, -⟩ := typeOf_buildRecord clashingIdentity hΓ ⟨"t", "s", false⟩ hcfg
    { issued := 4 } sharedNames sharedTypes hes
  obtain ⟨-, hrepeated⟩ := typeOf_buildRecord clashingIdentity hΓ ⟨"t", "s", false⟩ hcfg {}
    (("y", .prim (.bool true)) :: sharedNames) (("y", .bool) :: sharedTypes)
    (.cons ⟨rfl, {}, {}, _, hown, rfl⟩ hes)
  obtain ⟨hrecord, hfield, hmissing⟩ := hdistinct hn
  exact ⟨hΓ, hcfg, hn, hy, hrecord, (hfield "y" _ hy).1, hmissing "z" (by decide) _
    (List.mem_cons_of_mem _ List.mem_cons_self), hrepeated (by decide)⟩

end RowTyping
