import RowTyping.Proofs.Infer.BoundNames
import RowTyping.Proofs.Infer.Matching

/-!
# Inference in lockstep

Two runs of inference on the same expression, with other stems and after another number of
variables, stay in step up to a matching of their variables (`infer_lockstep`). So the type of an
expression, or the reason why it has none, does not depend on where the names of variables come
from.

The second run may have expressions in the place of some names of the first. Such a name has a
closed scheme in the first run, and the expression in its place always comes out with a renaming of
the type in that scheme (`Realizes`), as a copy of it does in the first run.
-/

namespace RowTyping

open InferM

/-! ## Schemes -/

/-- The two schemes are the same and closed, or their bodies match and they quantify matched
variables, in any order. -/
inductive Scheme.Matched (M : Matching) : Scheme → Scheme → Prop
  | closed {σ : Scheme} : σ.freeVars = .empty → Matched M σ σ
  | renamed {us us' : List TyVar} {t t' : Ty} : M.Matches t t' → (∀ u ∈ us, M.Has u) →
      us'.Perm (us.map M.map) → Matched M ⟨us, t⟩ ⟨us', t'⟩

namespace Scheme.Matched

variable {M M' : Matching} {σ σ' : Scheme}

theorem mono (h : Matched M σ σ') (hM : M ≤ M') : Matched M' σ σ' := by
  cases h with
  | closed hc => exact .closed hc
  | renamed ht hus hperm =>
    refine .renamed (ht.mono hM) (fun u hu => (hM u (hus u hu)).1) ?_
    rwa [List.map_congr_left fun u hu => (hM u (hus u hu)).2]

theorem subst {s s' : Subst} (h : Matched M σ σ') (hM : M ≤ M') (hs : M.Follows M' s s') :
    Matched M' (σ.subst s) (σ'.subst s') := by
  cases h with
  | closed hc =>
    rw [subst_of_closed hc, subst_of_closed hc]
    exact .closed hc
  | @renamed us us' t t' ht hus hperm =>
    obtain ⟨ho, rfl⟩ := ht
    refine .renamed (Matching.matches_subst fun v hv => ?_) (fun u hu => (hM u (hus u hu)).1) ?_
    · have happ := app_filterKeys ⟨us, t⟩ s v
      have happ' := app_filterKeys ⟨us', t.rename M.map⟩ s' (M.map v)
      simp only [M.map.apply_mem_of_perm hperm] at happ happ'
      rw [happ, happ']
      split
      · exact (Matching.matches_var (ho v hv)).mono hM
      · exact hs v (ho v hv)
    · rwa [List.map_congr_left fun u hu => (hM u (hus u hu)).2]

theorem mem_freeVars (h : Matched M σ σ') {v : TyVar} :
    M.map v ∈ σ'.freeVars ↔ v ∈ σ.freeVars := by
  cases h with
  | closed hc => simp [hc]
  | @renamed us us' t t' ht hus hperm =>
    rw [ht.2, Scheme.mem_freeVars, Scheme.mem_freeVars, Ty.apply_mem_freeVars_rename,
      M.map.apply_mem_of_perm hperm]

/-- Instances of matched schemes can be matched. -/
theorem exists_copy {cfg cfg' : Config} (hcfg : cfg.SingleStems) (hcfg' : cfg'.SingleStems)
    {n n' : Nat} (h : Matched M σ σ') (hM : M.Tracks cfg n cfg' n') {stem stem' : TyVar → String}
    (hstem : ∀ v, (stem v).length ≤ 1) (hstem' : ∀ v, (stem' v).length ≤ 1) :
    σ'.vars.length = σ.vars.length ∧ ∃ M', M ≤ M' ∧
      M'.Tracks cfg (n + (cfg.copies stem n σ.vars).length) cfg'
        (n' + (cfg'.copies stem' n' σ'.vars).length) ∧
      M'.Matches (cfg.copy stem n σ) (cfg'.copy stem' n' σ') := by
  cases h with
  | closed hc =>
    obtain ⟨M', hle, htracks, hmatch⟩ := Matching.exists_both_copies hcfg hcfg' hM hstem hstem'
      .refl fun u (hu : u ∈ σ.vars) => hu
    refine ⟨rfl, M', hle, htracks, ?_⟩
    have hbody := Matching.matches_subst (t := σ.body) (ρ := .refl) fun v hv => hmatch v ?_
    · rwa [Ty.rename_refl] at hbody
    · refine Decidable.byContradiction fun hvs => ?_
      exact OrdSet.not_mem_empty v (hc ▸ Scheme.mem_freeVars.2 ⟨hv, hvs⟩)
  | @renamed us us' t t' ht hus hperm =>
    obtain ⟨ho, rfl⟩ := ht
    obtain ⟨M', hle, htracks, hmatch⟩ := Matching.exists_both_copies hcfg hcfg' hM hstem hstem'
      M.map fun u hu => (M.map.apply_mem_of_perm hperm).2 hu
    refine ⟨by rw [hperm.length_eq, List.length_map], M', hle, htracks, ?_⟩
    refine Matching.matches_subst fun v hv => ?_
    by_cases hvs : v ∈ us
    · exact hmatch v hvs
    · rw [cfg.app_copying_of_not_mem stem hvs, cfg'.app_copying_of_not_mem stem' fun hm =>
        hvs ((M.map.apply_mem_of_perm hperm).1 hm)]
      exact (Matching.matches_var (ho v hv)).mono hle

end Scheme.Matched

/-! ## Environments -/

/-- In the environment, the expression always comes out with a renaming of the type in the scheme,
which is closed. -/
structure Realizes (cfg : Config) (Γ : Env) (d : Expr) (σ : Scheme) : Prop where
  closed : σ.freeVars = .empty
  ends (n : Nat) : ∃ vs s, ∃ τ : Renaming, Ends cfg (infer Γ d) n vs (.ok (s, σ.body.rename τ))

/-- Names have matched schemes, except for those that `θ` replaces: such a name has a scheme that
its expression realizes in `Γ₀`, and what it needs of `Γ₀` is still there. -/
structure Linked (θ : String → Option Expr) (cfg : Config) (Γ₀ : Env) (M : Matching) (Γ Γ' : Env) :
    Prop where
  kept (x : String) : θ x = none → Option.Rel (Scheme.Matched M) (Γ.get? x) (Γ'.get? x)
  realized (x : String) (d : Expr) : θ x = some d → ∃ σ, Γ.get? x = some σ ∧ Realizes cfg Γ₀ d σ
  needed (x : String) (d : Expr) : θ x = some d → ∀ y ∈ x :: d.freeNames, Γ'.get? y = Γ₀.get? y

/-- The binders of the expression are out of the way of the replaced names and of what replaces
them. -/
def OutOfTheWay (θ : String → Option Expr) (e : Expr) : Prop :=
  ∀ y ∈ e.boundNames, θ y = none ∧ ∀ x d, θ x = some d → y ∉ d.freeNames

namespace Linked

variable {θ : String → Option Expr} {cfg : Config} {Γ₀ Γ Γ' : Env} {M M' : Matching}

theorem mono (h : Linked θ cfg Γ₀ M Γ Γ') (hM : M ≤ M') : Linked θ cfg Γ₀ M' Γ Γ' where
  kept x hx := by
    have hk := h.kept x hx
    generalize Γ.get? x = o, Γ'.get? x = o' at hk ⊢
    cases hk with
    | some hσ => exact .some (hσ.mono hM)
    | none => exact .none
  realized := h.realized
  needed := h.needed

theorem subst (h : Linked θ cfg Γ₀ M Γ Γ') (hΓ₀ : Γ₀.Closed) (hM : M ≤ M') {s s' : Subst}
    (hs : M.Follows M' s s') : Linked θ cfg Γ₀ M' (Γ.subst s) (Γ'.subst s') where
  kept x hx := by
    rw [Env.get?_subst, Env.get?_subst]
    have hk := h.kept x hx
    generalize Γ.get? x = o, Γ'.get? x = o' at hk ⊢
    cases hk with
    | some hσ => exact .some (hσ.subst hM hs)
    | none => exact .none
  realized x d hx := by
    obtain ⟨σ, hσ, hd⟩ := h.realized x d hx
    refine ⟨σ, ?_, hd⟩
    rw [Env.get?_subst, hσ, Option.map_some, Scheme.subst_of_closed hd.closed]
  needed x d hx y hy := by
    rw [Env.get?_subst, h.needed x d hx y hy]
    cases hσ : Γ₀.get? y with
    | none => rfl
    | some σ => rw [Option.map_some, Scheme.subst_of_closed (hΓ₀.freeVars_get? hσ)]

theorem extend (h : Linked θ cfg Γ₀ M Γ Γ') {y : String} (hy : θ y = none)
    (hnew : ∀ x d, θ x = some d → y ∉ d.freeNames) {σ σ' : Scheme} (hσ : σ.Matched M σ') :
    Linked θ cfg Γ₀ M (Γ.extend y σ) (Γ'.extend y σ') where
  kept x hx := by
    rw [Env.get?_extend, Env.get?_extend]
    split
    · exact .some hσ
    · exact h.kept x hx
  realized x d hx := by
    have hne : x ≠ y := by
      rintro rfl
      rw [hy] at hx
      cases hx
    rw [Env.get?_extend, if_neg hne]
    exact h.realized x d hx
  needed x d hx z hz := by
    have hne : z ≠ y := by
      rintro rfl
      rcases List.mem_cons.1 hz with rfl | hz
      · rw [hy] at hx
        cases hx
      · exact hnew x d hx hz
    rw [Env.get?_extend, if_neg hne]
    exact h.needed x d hx z hz

theorem mem_freeVars (h : Linked θ cfg Γ₀ M Γ Γ') (hΓ₀ : Γ₀.Closed) {v : TyVar} :
    M.map v ∈ Γ'.freeVars ↔ v ∈ Γ.freeVars := by
  rw [Env.mem_freeVars, Env.mem_freeVars]
  refine exists_congr fun x => ?_
  cases hx : θ x with
  | none =>
    have hk := h.kept x hx
    generalize Γ.get? x = o, Γ'.get? x = o' at hk ⊢
    cases hk with
    | none => simp
    | some hσ => simp [hσ.mem_freeVars]
  | some d =>
    -- Both schemes of a replaced name are closed.
    obtain ⟨σ, hσ, hd⟩ := h.realized x d hx
    constructor
    · rintro ⟨τ, hτ, hvτ⟩
      rw [h.needed x d hx x List.mem_cons_self] at hτ
      rw [hΓ₀.freeVars_get? hτ] at hvτ
      exact absurd hvτ (OrdSet.not_mem_empty _)
    · rintro ⟨τ, hτ, hvτ⟩
      obtain rfl := Option.some.inj (hσ.symm.trans hτ)
      rw [hd.closed] at hvτ
      exact absurd hvτ (OrdSet.not_mem_empty _)

theorem generalize (h : Linked θ cfg Γ₀ M Γ Γ') (hΓ₀ : Γ₀.Closed) {t t' : Ty}
    (ht : M.Matches t t') : (Γ.generalize t).Matched M (Γ'.generalize t') := by
  refine .renamed ht (fun u hu => ht.1 u (Env.mem_generalize_vars.1 hu).1) ?_
  refine M.map.perm_toList fun v => ?_
  rw [OrdSet.mem_diff, ht.2, Ty.mem_freeVars_rename]
  simp only [OrdSet.mem_diff]
  constructor
  · rintro ⟨⟨u, hu, rfl⟩, hv⟩
    exact ⟨u, ⟨hu, fun hm => hv ((h.mem_freeVars hΓ₀).2 hm)⟩, rfl⟩
  · rintro ⟨u, ⟨hu, hv⟩, rfl⟩
    exact ⟨⟨u, hu, rfl⟩, fun hm => hv ((h.mem_freeVars hΓ₀).1 hm)⟩

end Linked

/-! ## Runs -/

theorem infer_var_ends {cfg : Config} {n : Nat} {Γ : Env} {x : String} {σ : Scheme}
    (hx : Γ.get? x = some σ) :
    Ends cfg (infer Γ (.var x)) n (cfg.copies TyVar.stem n σ.vars)
      (.ok (.empty, cfg.copy TyVar.stem n σ)) := by
  obtain ⟨vs, r, hr, hrun⟩ := infer_yields cfg n Γ (.var x)
  cases r with
  | error f =>
    cases hr with
    | unbound hn => cases hx.symm.trans hn
  | ok r =>
    obtain ⟨s, t⟩ := r
    cases hr with
    | var hσ =>
      obtain rfl := Option.some.inj (hx.symm.trans hσ)
      exact hrun

theorem infer_prim_ends {cfg : Config} {n : Nat} {Γ : Env} {p : Prim} {σ : Scheme}
    (hp : p.scheme? = some σ) :
    Ends cfg (infer Γ (.prim p)) n (cfg.copies cfg.ownStem n σ.vars)
      (.ok (.empty, cfg.copy cfg.ownStem n σ)) := by
  obtain ⟨vs, r, hr, hrun⟩ := infer_yields cfg n Γ (.prim p)
  cases r with
  | error f =>
    cases hr with
    | prim hn => cases hp.symm.trans hn
  | ok r =>
    obtain ⟨s, t⟩ := r
    cases hr with
    | prim hσ =>
      obtain rfl := Option.some.inj (hp.symm.trans hσ)
      exact hrun

section Lockstep

variable {θ : String → Option Expr} {cfg cfg' : Config} (hcfg : cfg.SingleStems)
  (hcfg' : cfg'.SingleStems) {Γ₀ Γ Γ' : Env} (hΓ₀ : Γ₀.Closed) {M : Matching} {n n' : Nat}

/-- Both runs succeed in step: what they return is matched, and so is what they make of matched
variables. If nothing is replaced, they issue as many variables. -/
def InStep (θ : String → Option Expr) (M : Matching) (cfg : Config) (n : Nat) (cfg' : Config)
    (n' : Nat) (vs vs' : List TyVar) (r r' : Subst × Ty) : Prop :=
  ((∀ x, θ x = none) → vs'.length = vs.length) ∧
    ∃ M', M ≤ M' ∧ M'.Tracks cfg (n + vs.length) cfg' (n' + vs'.length) ∧
      M.Follows M' r.1 r'.1 ∧ M'.Matches r.2 r'.2

/-- Both runs fail in step. -/
def FailInStep (θ : String → Option Expr) (vs vs' : List TyVar) (f f' : Fault) : Prop :=
  ((∀ x, θ x = none) → vs'.length = vs.length) ∧ ∃ ρ : Renaming, f' = f.rename ρ

theorem FailInStep.after {vs vs' ws ws' : List TyVar} {f f' : Fault} (h : FailInStep θ ws ws' f f')
    (hlen : (∀ x, θ x = none) → vs'.length = vs.length) :
    FailInStep θ (vs ++ ws) (vs' ++ ws') f f' := by
  refine ⟨fun hθ => ?_, h.2⟩
  rw [List.length_append, List.length_append, hlen hθ, h.1 hθ]

/-- Wherever the two runs stand, on this expression they stay in step. In the second one,
expressions take the place of names. -/
def RunsInStep (θ : String → Option Expr) (cfg cfg' : Config) (Γ₀ : Env) (e : Expr) : Prop :=
  ∀ ⦃n n' : Nat⦄ ⦃M : Matching⦄ ⦃Γ Γ' : Env⦄, M.Tracks cfg n cfg' n' → Γ.Uncaptured n →
    Γ'.Uncaptured n' → Linked θ cfg' Γ₀ M Γ Γ' →
      Twins cfg n (infer Γ e) cfg' n' (infer Γ' (e.replace θ)) (InStep θ M cfg n cfg' n')
        (FailInStep θ)

include hcfg hcfg'

include hΓ₀ in
theorem Linked.realized_twins (hM : M.Tracks cfg n cfg' n')
    (hΓ' : Γ'.Uncaptured n') (h : Linked θ cfg' Γ₀ M Γ Γ') {x : String} {d : Expr}
    (hx : θ x = some d) :
    Twins cfg n (infer Γ (.var x)) cfg' n' (infer Γ' d) (InStep θ M cfg n cfg' n')
      (FailInStep θ) := by
  obtain ⟨σ, hσ, hd⟩ := h.realized x d hx
  obtain ⟨vs', s', τ, hends⟩ := hd.ends n'
  have hagree : Env.Agree [] d.freeNames Γ₀ Γ' := Env.agree_nil fun y hy =>
    (h.needed x d hx y (List.mem_cons_of_mem _ hy)).symm
  have hends' :=
    (infer_alpha hcfg' (Expr.AlphaEquiv.refl d) (hΓ₀.uncaptured n') hΓ' hagree).ends hends
  have h' : Inferred Env.generalize cfg' n' Γ' d vs' s' (σ.body.rename τ) :=
    (infer_yields ..).of_ends_ok hends'
  refine .ok (infer_var_ends hσ) hends' ⟨fun hθ => ?_, ?_⟩
  · rw [hθ x] at hx
    cases hx
  -- What the second run mentions is new there, for the expression uses closed schemes only.
  obtain ⟨hs', ht'⟩ : s'.Over (¬·.Past n') ∧ (σ.body.rename τ).Over (¬·.Past n') := by
    refine h'.over_used (fun y hy ρ hρ => ?_) fun v hv hp => hp.not_issued (h'.namedFrom hcfg') hv
    rw [h.needed x d hx y (List.mem_cons_of_mem _ hy)] at hρ
    intro v hv
    rw [hΓ₀.freeVars_get? hρ] at hv
    exact absurd hv (OrdSet.not_mem_empty v)
  have hpt' := (h'.past hcfg' hΓ'.past).2
  have hquant : ∀ v ∈ σ.body.freeVars, v ∈ σ.vars := fun v hv =>
    Decidable.byContradiction fun hvs =>
      OrdSet.not_mem_empty v (hd.closed ▸ Scheme.mem_freeVars.2 ⟨hv, hvs⟩)
  obtain ⟨M', hle, htracks, hmatch⟩ := Matching.exists_copies hcfg hcfg' hM TyVar.length_stem_le
    hquant (f := τ) (fun u v _ _ he => τ.apply_inj.1 he) (fun u _ => τ.constraint_apply u)
    (fun u hu => ht' _ (Ty.apply_mem_freeVars_rename.2 hu))
    (fun u hu => hpt' _ (Ty.apply_mem_freeVars_rename.2 hu))
  refine ⟨M', hle, htracks, fun v hv => ?_, ?_⟩
  · have hk : M.map v ∉ s'.keys := fun hk =>
      hs' _ (Subst.mentions_of_mem_keys hk) (hM.past_map hv)
    rw [Subst.app_of_not_mem hk]
    exact (Matching.matches_var hv).mono hle
  · have hbody : M'.Matches (σ.body.subst (cfg.copying TyVar.stem n σ.vars .empty))
        ((σ.body.rename τ).subst .empty) := by
      exact Matching.matches_subst fun v hv => hmatch v hv
    rwa [Ty.subst_empty] at hbody

theorem Linked.kept_twins (hM : M.Tracks cfg n cfg' n') (h : Linked θ cfg' Γ₀ M Γ Γ') {x : String}
    (hx : θ x = none) :
    Twins cfg n (infer Γ (.var x)) cfg' n' (infer Γ' (.var x)) (InStep θ M cfg n cfg' n')
      (FailInStep θ) := by
  have hk := h.kept x hx
  generalize hget : Γ.get? x = o, hget' : Γ'.get? x = o' at hk
  cases hk with
  | none =>
    refine .trace_bind rfl rfl ?_
    rw [hget, hget']
    exact .fail ⟨fun _ => rfl, .refl, rfl⟩
  | some hσ =>
    obtain ⟨hlen, M', hle, hM', ht⟩ :=
      hσ.exists_copy hcfg hcfg' hM TyVar.length_stem_le TyVar.length_stem_le
    refine .ok (infer_var_ends hget) (infer_var_ends hget') ⟨fun _ => ?_, M', hle, hM', ?_, ht⟩
    · rw [Config.length_copies, Config.length_copies, hlen]
    · exact Matching.follows_empty hle

theorem runsInStep_prim (p : Prim) : RunsInStep θ cfg cfg' Γ₀ (.prim p) := by
  intro n n' M Γ Γ' hM hΓ hΓ' h
  cases hp : p.scheme? with
  | some σ =>
    have hc : σ.freeVars = .empty := OrdSet.ext fun v => by simp [Prim.scheme?_closed hp v]
    obtain ⟨-, M', hle, hM', ht⟩ := (Scheme.Matched.closed hc).exists_copy hcfg hcfg' hM
      (cfg.length_ownStem_le hcfg) (cfg'.length_ownStem_le hcfg')
    refine .ok (infer_prim_ends hp) (infer_prim_ends hp) ⟨fun _ => ?_, M', hle, hM', ?_, ht⟩
    · rw [Config.length_copies, Config.length_copies]
    · exact Matching.follows_empty hle
  | none =>
    cases p with
    | hole =>
      refine .trace_bind rfl rfl ((Twins.throw (Q := fun _ _ _ _ => False) ?_).bind
        (fun _ _ _ _ hf => hf.elim) fun _ _ _ _ hf => hf)
      exact ⟨fun _ => rfl, .refl, rfl⟩
    | _ => cases hp

theorem runsInStep_abs {x : String} {e : Expr} (hx : θ x = none)
    (hnew : ∀ y d, θ y = some d → x ∉ d.freeNames) (he : RunsInStep θ cfg cfg' Γ₀ e) :
    RunsInStep θ cfg cfg' Γ₀ (.abs x e) := by
  intro n n' M Γ Γ' hM hΓ hΓ' h
  obtain ⟨M₁, hle₁, hM₁, hγ, hγ'⟩ := Matching.exists_typeVar hcfg hcfg' hM
  have hvar := hγ' ▸ Matching.matches_var hγ
  have hσ : (Scheme.mono (.var (cfg.typeVar n))).Matched M₁ (.mono (.var (cfg'.typeVar n'))) :=
    .renamed hvar (fun u hu => by cases hu) .nil
  have hbody := he hM₁ (hΓ.extend_typeVar hcfg x) (hΓ'.extend_typeVar hcfg' x)
    ((h.mono hle₁).extend hx hnew hσ)
  refine .trace_bind rfl rfl (.freshType_bind (hbody.bind ?_ ?_))
  · rintro vs vs' ⟨s, t⟩ ⟨s', t'⟩ ⟨hlen, M₂, hle₂, hM₂, hs, ht⟩
    refine .pure ⟨fun hθ => by simp [hlen hθ], M₂, hle₁.trans hle₂, ?_, hs.of_le hle₁, ?_⟩
    · exact hM₂.cast (by simp; omega) (by simp; omega)
    · exact (hvar.subst hs).fn ht
  · rintro vs vs' f f' ⟨hlen, hf⟩
    exact ⟨fun hθ => by simp [hlen hθ], hf⟩

include hΓ₀

theorem runsInStep_var (x : String) : RunsInStep θ cfg cfg' Γ₀ (.var x) := by
  intro n n' M Γ Γ' hM hΓ hΓ' h
  rw [Expr.replace]
  cases hx : θ x with
  | some d => exact h.realized_twins hcfg hcfg' hΓ₀ hM hΓ' hx
  | none => exact h.kept_twins hcfg hcfg' hM hx

theorem runsInStep_app {f a : Expr} (hf : RunsInStep θ cfg cfg' Γ₀ f)
    (ha : RunsInStep θ cfg cfg' Γ₀ a) : RunsInStep θ cfg cfg' Γ₀ (.app f a) := by
  intro n n' M Γ Γ' hM hΓ hΓ' h
  refine .trace_bind rfl rfl (((hf hM hΓ hΓ' h).with_yields (infer_yields ..)
    (infer_yields ..)).bind ?_ fun _ _ _ _ hf => hf)
  rintro vs₁ vs₁' ⟨s₁, t₁⟩ ⟨s₁', t₁'⟩ ⟨⟨hlen₁, M₁, hle₁, hM₁, hs₁, ht₁⟩, h₁, h₁'⟩
  have harg := ha hM₁ (h₁.uncaptured hcfg hΓ) (h₁'.uncaptured hcfg' hΓ') (h.subst hΓ₀ hle₁ hs₁)
  refine (harg.with_yields (infer_yields ..) (infer_yields ..)).bind ?_ fun _ _ _ _ hf =>
    hf.after hlen₁
  rintro vs₂ vs₂' ⟨s₂, t₂⟩ ⟨s₂', t₂'⟩ ⟨⟨hlen₂, M₂, hle₂, hM₂, hs₂, ht₂⟩, h₂, h₂'⟩
  obtain ⟨M₃, hle₃, hM₃, hγ, hγ'⟩ := Matching.exists_typeVar hcfg hcfg' hM₂
  have hvar := hγ' ▸ Matching.matches_var hγ
  have hunify := Matching.unify_twins hcfg hcfg' hM₃ ((ht₁.subst hs₂).mono hle₃)
    ((ht₂.mono hle₃).fn hvar)
  refine .freshType_bind (hunify.bind ?_ ?_)
  · rintro vs₃ vs₃' s₃ s₃' ⟨hu, hu', hlen₃, M₄, hle₄, hM₄, hs₃⟩
    refine .pure ⟨fun hθ => ?_, M₄, hle₁.trans (hle₂.trans (hle₃.trans hle₄)), ?_, ?_, ?_⟩
    · simp [hlen₁ hθ, hlen₂ hθ, hlen₃]
    · exact hM₄.cast (by simp; omega) (by simp; omega)
    · have hs := hs₁.compose hs₂ (h₁.keys_apart hcfg hΓ.past h₂) (h₁'.keys_apart hcfg' hΓ'.past h₂')
      exact hs.compose (hs₃.of_le hle₃) (h₁.unifier_apart hcfg hΓ.past h₂ hu)
        (h₁'.unifier_apart hcfg' hΓ'.past h₂' hu')
    · exact hvar.subst hs₃
  · rintro vs₃ vs₃' f f' ⟨hlen₃, hf⟩
    exact ⟨fun hθ => by simp [hlen₁ hθ, hlen₂ hθ, hlen₃], hf⟩

theorem runsInStep_letIn {x : String} {e₁ e₂ : Expr} (hx : θ x = none)
    (hnew : ∀ y d, θ y = some d → x ∉ d.freeNames) (he₁ : RunsInStep θ cfg cfg' Γ₀ e₁)
    (he₂ : RunsInStep θ cfg cfg' Γ₀ e₂) : RunsInStep θ cfg cfg' Γ₀ (.letIn x e₁ e₂) := by
  intro n n' M Γ Γ' hM hΓ hΓ' h
  refine .trace_bind rfl rfl (((he₁ hM hΓ hΓ' h).with_yields (infer_yields ..)
    (infer_yields ..)).bind ?_ fun _ _ _ _ hf => hf)
  rintro vs₁ vs₁' ⟨s₁, t₁⟩ ⟨s₁', t₁'⟩ ⟨⟨hlen₁, M₁, hle₁, hM₁, hs₁, ht₁⟩, h₁, h₁'⟩
  have hlink := h.subst hΓ₀ hle₁ hs₁
  have hbody := he₂ hM₁ (h₁.let_uncaptured hcfg hΓ x) (h₁'.let_uncaptured hcfg' hΓ' x)
    (hlink.extend hx hnew (hlink.generalize hΓ₀ ht₁))
  rw [← h₁.let_env hcfg hΓ.past, ← h₁'.let_env hcfg' hΓ'.past] at hbody
  refine (hbody.with_yields (infer_yields ..) (infer_yields ..)).bind ?_ fun _ _ _ _ hf =>
    hf.after hlen₁
  rintro vs₂ vs₂' ⟨s₂, t₂⟩ ⟨s₂', t₂'⟩ ⟨⟨hlen₂, M₂, hle₂, hM₂, hs₂, ht₂⟩, h₂, h₂'⟩
  refine .pure ⟨fun hθ => by simp [hlen₁ hθ, hlen₂ hθ], M₂, hle₁.trans hle₂, ?_, ?_, ht₂⟩
  · exact hM₂.cast (by simp; omega) (by simp; omega)
  · exact hs₁.compose hs₂ (h₁.keys_apart hcfg hΓ.past h₂) (h₁'.keys_apart hcfg' hΓ'.past h₂')

/-- Two runs of inference stay in step on every expression whose binders are out of the way. -/
theorem infer_lockstep {e : Expr} (he : OutOfTheWay θ e) : RunsInStep θ cfg cfg' Γ₀ e := by
  induction e with
  | var x => exact runsInStep_var hcfg hcfg' hΓ₀ x
  | prim p => exact runsInStep_prim hcfg hcfg' p
  | app f a ihf iha =>
    have hf : OutOfTheWay θ f := fun y hy => he y (List.mem_append_left _ hy)
    have ha : OutOfTheWay θ a := fun y hy => he y (List.mem_append_right _ hy)
    exact runsInStep_app hcfg hcfg' hΓ₀ (ihf hf) (iha ha)
  | abs x e ih =>
    obtain ⟨hx, hnew⟩ := he x List.mem_cons_self
    exact runsInStep_abs hcfg hcfg' hx hnew (ih fun y hy => he y (List.mem_cons_of_mem _ hy))
  | letIn x e₁ e₂ ih₁ ih₂ =>
    obtain ⟨hx, hnew⟩ := he x List.mem_cons_self
    have he₁ : OutOfTheWay θ e₁ := fun y hy =>
      he y (List.mem_cons_of_mem _ (List.mem_append_left _ hy))
    have he₂ : OutOfTheWay θ e₂ := fun y hy =>
      he y (List.mem_cons_of_mem _ (List.mem_append_right _ hy))
    exact runsInStep_letIn hcfg hcfg' hΓ₀ hx hnew (ih₁ he₁) (ih₂ he₂)
  | hole =>
    intro n n' M Γ Γ' hM hΓ hΓ' h
    exact .trace_bind rfl rfl (.throw ⟨fun _ => rfl, .refl, rfl⟩)

/-- What two runs in step find out about the type of an expression is the same up to renaming. -/
theorem typeOf_lockstep {e : Expr} (he : OutOfTheWay θ e) (hM : M.Tracks cfg n cfg' n')
    (hΓ : Γ.Uncaptured n) (hΓ' : Γ'.Uncaptured n')
    (h : Linked θ cfg' Γ₀ M Γ Γ') :
    ∃ (ρ : Renaming) (r : Except Fault Ty) (vs vs' : List TyVar), Ends cfg (typeOf Γ e) n vs r ∧
      Ends cfg' (typeOf Γ' (e.replace θ)) n' vs' (ρ.result r) ∧
      ((∀ x, θ x = none) → vs'.length = vs.length) := by
  cases infer_lockstep hcfg hcfg' hΓ₀ he hM hΓ hΓ' h with
  | @error vs vs' f f' hx hx' h =>
    obtain ⟨hlen, ρ, rfl⟩ := h
    exact ⟨ρ, .error f, vs, vs', hx.bind_error, hx'.bind_error, hlen⟩
  | @ok vs vs' r r' hx hx' h =>
    obtain ⟨hlen, M', -, -, -, -, ht⟩ := h
    refine ⟨M'.map, .ok r.2, vs, vs', typeOf_ends hcfg hΓ.past hx, ?_, hlen⟩
    have hend := typeOf_ends hcfg' hΓ'.past hx'
    rw [Except.map, ht] at hend
    exact hend

end Lockstep

/-! ## Independence of the supply -/

/-- An environment of closed schemes is linked with itself, where nothing is replaced. -/
theorem Env.Closed.linked {Γ : Env} (hΓ : Γ.Closed) (cfg : Config) (M : Matching) :
    Linked (fun _ => none) cfg Γ M Γ Γ where
  kept x _ := by
    cases hx : Γ.get? x with
    | none => exact .none
    | some σ => exact .some (.closed (hΓ.freeVars_get? hx))
  realized x d hx := by cases hx
  needed x d hx := by cases hx

theorem outOfTheWay_none (e : Expr) : OutOfTheWay (fun _ => none) e :=
  fun _ _ => ⟨rfl, fun _ _ hx => by cases hx⟩

/-- Type inference does not depend on the stems of the variables that it issues, nor on how many
were issued before. Two runs both succeed or both fail, and never for want of depth. Their types,
or the faults that they end with, are renamings of each other, and they issue equally many
variables. -/
theorem typeOf_supply_independent (Γ : Env) (hΓ : Γ.Closed) (e : Expr) (cfg cfg' : Config)
    (hcfg : cfg.SingleStems) (hcfg' : cfg'.SingleStems) (st st' : RunState) :
    ∃ (ρ : Renaming) (r : Except Fault Ty) (k : Nat) (st₁ st₁' : RunState),
      r ≠ .error .outOfFuel ∧ typeOf Γ e cfg st = ending r st₁ ∧
      typeOf Γ e cfg' st' = ending (ρ.result r) st₁' ∧
      st₁.issued = st.issued + k ∧ st₁'.issued = st'.issued + k := by
  obtain ⟨M, hM⟩ := Matching.exists_initial hcfg hcfg' st.issued st'.issued
  obtain ⟨ρ, r, vs, vs', hx, hx', hlen⟩ := typeOf_lockstep hcfg hcfg' hΓ (outOfTheWay_none e) hM
    (hΓ.uncaptured _) (hΓ.uncaptured _) (hΓ.linked cfg' M)
  rw [Expr.replace_none] at hx'
  obtain ⟨st₁, hst₁, hi₁⟩ := hx cfg.trace st rfl
  obtain ⟨st₁', hst₁', hi₁'⟩ := hx' cfg'.trace st' rfl
  refine ⟨ρ, r, vs.length, st₁, st₁', ?_, hst₁, hst₁', hi₁.issued, ?_⟩
  · exact typeOf_ends_ne_outOfFuel hcfg (hΓ.uncaptured _) hx
  · rw [hi₁'.issued, hlen fun _ => rfl]

/-- A function of two parameters, used through a `let`. -/
def constantPoly : Expr := .letIn "k" (.abs "x" (.abs "y" (.var "x"))) (.var "k")

/-- After nine variables, the names of the parameter types come in the wrong order, `a10` before
`a9`, and so do their copies. With another stem and from the start they do not. -/
theorem typeOf_supply_independent_constantPoly :
    Env.Closed .empty ∧ Config.SingleStems {} ∧ Config.SingleStems ⟨"t", "t", false⟩ ∧
      typeOf .empty constantPoly {} { issued := 9 } =
        .ok (.fn (.var ⟨"a12", .free⟩) (.fn (.var ⟨"a11", .free⟩) (.var ⟨"a12", .free⟩)))
          { issued := 13 } ∧
      typeOf .empty constantPoly ⟨"t", "t", false⟩ {} =
        .ok (.fn (.var ⟨"t2", .free⟩) (.fn (.var ⟨"t3", .free⟩) (.var ⟨"t2", .free⟩)))
          { issued := 4 } ∧
      ∃ (ρ : Renaming) (r : Except Fault Ty) (k : Nat) (st₁ st₁' : RunState),
        r ≠ .error .outOfFuel ∧ typeOf .empty constantPoly {} { issued := 9 } = ending r st₁ ∧
        typeOf .empty constantPoly ⟨"t", "t", false⟩ {} = ending (ρ.result r) st₁' ∧
        st₁.issued = 9 + k ∧ st₁'.issued = 0 + k := by
  have hΓ : Env.Closed .empty := by decide
  have hcfg : Config.SingleStems {} := ⟨rfl, rfl⟩
  have hcfg' : Config.SingleStems ⟨"t", "t", false⟩ := ⟨rfl, rfl⟩
  exact ⟨hΓ, hcfg, hcfg', rfl, rfl,
    typeOf_supply_independent .empty hΓ constantPoly {} ⟨"t", "t", false⟩ hcfg hcfg'
      { issued := 9 } {}⟩

end RowTyping
