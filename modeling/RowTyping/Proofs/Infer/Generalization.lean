import RowTyping.Proofs.Infer.Matching

/-!
# Generalization and instances

Quantifying the variables of a type and taking an instance of the scheme undo each other up to the
names of variables. An instance *refreshes* the type (`Env.Refreshes`): a renaming puts newly issued
variables in the place of those that the environment does not mention, and leaves the others alone.
Two copies never get one name, as the number in it can be told from the stem, so the copies extend
to a renaming of all variables (`Config.exists_refreshing`). Whatever refreshes a type generalizes to
the same scheme, up to the names and the order of the quantified variables (`Scheme.Renamed`).

The run may have row variables with any stem; instances only take over the first character of a
name, or the stem of type variables in the place of an empty name.
-/

namespace RowTyping

/-- The second scheme is the first one with other quantified variables, listed in any order. -/
def Scheme.Renamed (σ σ' : Scheme) : Prop :=
  ∃ ρ : Renaming, (∀ v ∈ σ.freeVars, ρ v = v) ∧ σ'.vars.Perm (σ.vars.map ρ) ∧
    σ'.body = σ.body.rename ρ

/-- The renaming takes `t` to `t'`. It puts variables of `vs` in the place of the variables of `t`
that the environment does not mention, and fixes those that it does. -/
structure Env.Refreshes (Γ : Env) (vs : List TyVar) (ρ : Renaming) (t t' : Ty) : Prop where
  eq_rename : t' = t.rename ρ
  issued : ∀ v ∈ t.freeVars, v ∉ Γ.freeVars → ρ v ∈ vs
  fixed : ∀ v ∈ Γ.freeVars, ρ v = v

namespace Env.Refreshes

variable {Γ : Env} {vs : List TyVar} {ρ : Renaming} {t t' : Ty}

theorem mem_freeVars (h : Γ.Refreshes vs ρ t t') {v : TyVar} (hv : v ∈ t'.freeVars) :
    v ∈ Γ.freeVars ∨ v ∈ vs := by
  rw [h.eq_rename, Ty.mem_freeVars_rename] at hv
  obtain ⟨u, hu, rfl⟩ := hv
  by_cases huΓ : u ∈ Γ.freeVars
  · rw [h.fixed u huΓ]
    exact .inl huΓ
  · exact .inr (h.issued u hu huΓ)

/-- What is new after refreshing is what took the place of something that was not mentioned. -/
theorem mem_diff_iff (h : Γ.Refreshes vs ρ t t') (hvs : ∀ v ∈ vs, v ∉ Γ.freeVars) {v : TyVar} :
    v ∈ t'.freeVars \ Γ.freeVars ↔ ∃ u ∈ t.freeVars \ Γ.freeVars, ρ u = v := by
  simp only [OrdSet.mem_diff]
  rw [h.eq_rename, Ty.mem_freeVars_rename]
  constructor
  · rintro ⟨⟨u, hu, rfl⟩, hv⟩
    refine ⟨u, ⟨hu, fun huΓ => hv ?_⟩, rfl⟩
    rwa [h.fixed u huΓ]
  · rintro ⟨u, ⟨hu, huΓ⟩, rfl⟩
    exact ⟨⟨u, hu, rfl⟩, hvs _ (h.issued u hu huΓ)⟩

theorem generalize (h : Γ.Refreshes vs ρ t t') (hvs : ∀ v ∈ vs, v ∉ Γ.freeVars) :
    (Γ.generalize t).Renamed (Γ.generalize t') := by
  refine ⟨ρ, ?_, ρ.perm_toList fun v => h.mem_diff_iff hvs, h.eq_rename⟩
  intro v hv
  exact h.fixed v (mem_freeVars_generalize.1 hv).2

end Env.Refreshes

/-! ## Copies extend to a renaming -/

/-- There are names for any constraint that can still be issued. -/
theorem TyVar.infinite_not_past (c : Constraint) (m : Nat) :
    {x : String | ¬(TyVar.mk x c).Past m}.Infinite := by
  have hcfg : Config.SingleStems {} := ⟨rfl, rfl⟩
  exact (Config.infinite_foreign hcfg c m).mono fun _ hx => hx.1

namespace Config

/-- The second variable is a copy of the first, or the first one itself if that is kept. -/
def RefreshPair (cfg : Config) (n : Nat) (us : List TyVar) (kept : TyVars) (u w : TyVar) : Prop :=
  cfg.CopyPair TyVar.stem n us (· ∈ us) id w u ∨ (u ∈ kept ∧ w = u)

variable {cfg : Config} (hcfg : SingleStem cfg.typeStem) {n : Nat} {us : List TyVar} {kept : TyVars}

include hcfg

theorem instances_namedFrom (n : Nat) (us : List TyVar) :
    NamedFrom SingleStem n (cfg.copies TyVar.stem n us) :=
  cfg.copies_namedFrom hcfg TyVar.length_stem_le n us

variable (hus : ∀ u ∈ us, u.Past n ∧ u ∉ kept) (hkept : ∀ u ∈ kept, u.Past n)

include hus hkept

theorem oneToOne_refreshPair : OneToOne (cfg.RefreshPair n us kept) := by
  have hcopies : OneToOne fun u w => cfg.CopyPair TyVar.stem n us (· ∈ us) id w u :=
    (oneToOne_copyPair (fun _ hu => hu) hcfg TyVar.length_stem_le (fun _ _ _ _ he => he)
      fun _ _ => rfl).symm
  have hself : OneToOne fun u w => u ∈ kept ∧ w = u := by
    refine ⟨?_, ?_⟩
    · rintro u _ u' _ ⟨-, rfl⟩ ⟨-, rfl⟩
      exact Iff.rfl
    · rintro u _ ⟨-, rfl⟩
      rfl
  refine hcopies.or hself ?_
  rintro u w u' _ hp ⟨hu', rfl⟩
  have hw := hp.mem_copies fun _ hu => hu
  obtain ⟨_, hu, -, rfl⟩ := hp
  constructor
  · rintro rfl
    exact (hus _ hu).2 hu'
  · rintro rfl
    exact (hkept _ hu').not_issued (instances_namedFrom hcfg n us) hw

/-- Some renaming takes variables to their copies and leaves the kept ones alone. -/
theorem exists_refreshing : ∃ ρ : Renaming,
    (∀ u ∈ us, ρ u ∈ cfg.copies TyVar.stem n us ∧
      (cfg.copying TyVar.stem n us .empty).app u = .var (ρ u)) ∧ ∀ u ∈ kept, ρ u = u := by
  -- A name that can still be issued behind the copies belongs to no pair, on either side.
  have hle := Nat.le_add_right n (cfg.copies TyVar.stem n us).length
  obtain ⟨ρ, hρ⟩ := Renaming.exists_extending (oneToOne_refreshPair hcfg hus hkept)
    (fun c => (TyVar.infinite_not_past c _).mono <| by
      rintro x hx w (⟨_, hu, -, rfl⟩ | ⟨hu, -⟩)
      · exact hx ((hus _ hu).1.mono hle)
      · exact hx ((hkept _ hu).mono hle))
    (fun c => (TyVar.infinite_not_past c _).mono <| by
      rintro y hy u (hp | ⟨hu, rfl⟩)
      · refine hy (TyVar.past_of_issued (instances_namedFrom hcfg n us) ?_)
        exact hp.mem_copies fun _ hu => hu
      · exact hy ((hkept _ hu).mono hle))
  refine ⟨ρ, fun u hu => ?_, fun u hu => hρ u u (.inr ⟨hu, rfl⟩)⟩
  obtain ⟨w, hw, -, happ⟩ := cfg.app_copying_of_mem TyVar.stem (n := n) (s := .empty) hu
  rw [hρ u w (.inl ⟨u, hu, happ, rfl⟩)]
  exact ⟨hw, happ⟩

end Config

/-! ## Instances of a generalized type -/

section Instances

variable {cfg : Config} (hcfg : SingleStem cfg.typeStem) {n : Nat} {Γ : Env} {t : Ty}

variable (cfg n) in
theorem Scheme.instantiate_ends (σ : Scheme) :
    Ends cfg σ.instantiate n (cfg.copies TyVar.stem n σ.vars) (.ok (cfg.copy TyVar.stem n σ)) := by
  have hy : Yields cfg σ.instantiate n _ _ := σ.instantiate_yields
  obtain ⟨vs, r, hr, hrun⟩ := hy
  cases r with
  | error f => exact hr.elim
  | ok t =>
    obtain ⟨rfl, rfl⟩ := hr
    exact hrun

include hcfg

/-- An instance of a generalized type refreshes it. -/
theorem Env.generalize_refreshes (ht : t.Over (·.Past n)) (hΓ : Γ.Over (·.Past n)) :
    ∃ ρ, Γ.Refreshes (cfg.copies TyVar.stem n (Γ.generalize t).vars) ρ t
      (cfg.copy TyVar.stem n (Γ.generalize t)) := by
  have hvars : ∀ u ∈ (Γ.generalize t).vars, u.Past n ∧ u ∉ Γ.freeVars := by
    intro u hu
    obtain ⟨hut, huΓ⟩ := mem_generalize_vars.1 hu
    exact ⟨ht u hut, huΓ⟩
  obtain ⟨ρ, hcopy, hfixed⟩ := Config.exists_refreshing hcfg hvars hΓ
  refine ⟨ρ, Ty.subst_eq_rename fun v hv => ?_, fun v hv hvΓ => ?_, hfixed⟩
  · by_cases hvΓ : v ∈ Γ.freeVars
    · have hvs : v ∉ (Γ.generalize t).vars := fun h => (hvars v h).2 hvΓ
      rw [cfg.app_copying_of_not_mem TyVar.stem hvs, Subst.app_empty, hfixed v hvΓ]
    · exact (hcopy v (mem_generalize_vars.2 ⟨hv, hvΓ⟩)).2
  · exact (hcopy v (mem_generalize_vars.2 ⟨hv, hvΓ⟩)).1

end Instances

/-- Generalizing a type and taking an instance gives the type again, up to a renaming that puts
newly issued variables in the place of those that the environment does not mention. Two instances in
a row share only variables that the environment mentions, and generalizing an instance gives the
scheme again, up to the names and the order of its quantified variables. -/
theorem instantiate_generalize (cfg : Config) (hcfg : SingleStem cfg.typeStem) (st : RunState)
    (Γ : Env) (hΓ : Γ.Over (·.Past st.issued)) (t : Ty) (ht : t.Over (·.Past st.issued)) :
    ∃ t₁ st₁ t₂ st₂, (Γ.generalize t).instantiate cfg st = .ok t₁ st₁ ∧
      (Γ.generalize t).instantiate cfg st₁ = .ok t₂ st₂ ∧
      (∃ ρ, Γ.Refreshes ((Γ.generalize t).instantiate.issuedBy cfg st) ρ t t₁) ∧
      (∃ ρ, Γ.Refreshes ((Γ.generalize t).instantiate.issuedBy cfg st₁) ρ t t₂) ∧
      (∀ v ∈ t₁.freeVars, v ∈ t₂.freeVars → v ∈ Γ.freeVars) ∧
      (Γ.generalize t).Renamed (Γ.generalize t₁) := by
  have hends := fun n => (Γ.generalize t).instantiate_ends cfg n
  have hnamed := fun n => Config.instances_namedFrom hcfg n (Γ.generalize t).vars
  obtain ⟨st₁, hrun₁, hi₁⟩ := hends st.issued cfg.trace st rfl
  obtain ⟨st₂, hrun₂, -⟩ := hends st₁.issued cfg.trace st₁ rfl
  have hle : st.issued ≤ st₁.issued := hi₁.issued ▸ Nat.le_add_right ..
  obtain ⟨ρ₁, h₁⟩ := Env.generalize_refreshes hcfg ht hΓ
  obtain ⟨ρ₂, h₂⟩ := Env.generalize_refreshes hcfg (n := st₁.issued) (Γ := Γ) (t := t)
    (fun v hv => (ht v hv).mono hle) fun v hv => (hΓ v hv).mono hle
  refine ⟨_, st₁, _, st₂, hrun₁, hrun₂, ?_, ?_, fun v hv₁ hv₂ => ?_, ?_⟩
  · rw [(hends st.issued).issuedBy_eq rfl]
    exact ⟨ρ₁, h₁⟩
  · rw [(hends st₁.issued).issuedBy_eq rfl]
    exact ⟨ρ₂, h₂⟩
  · rcases h₁.mem_freeVars hv₁ with hv | hv
    · exact hv
    · -- A copy of the first run cannot be issued in the second.
      have hpast := TyVar.past_of_issued (hnamed st.issued) hv
      rw [← hi₁.issued] at hpast
      exact (h₂.mem_freeVars hv₂).resolve_right (hpast.not_issued (hnamed st₁.issued))
  · exact h₁.generalize fun v hv hvΓ => (hΓ v hvΓ).not_issued (hnamed st.issued) hv

/-- A number below the count is not issued again. -/
theorem TyVar.past_of_numbered {n k : Nat} {stem : String} {c : Constraint} (hs : SingleStem stem)
    (hk : k < n) : (TyVar.mk (stem ++ toString k) c).Past n := by
  rintro ⟨stem', k', hs', hk', hname⟩
  obtain ⟨-, rfl⟩ := name_unique hs hs' hname
  exact absurd hk' (Nat.not_le.2 hk)

/-- A name of at most one character has no number. -/
theorem TyVar.past_of_short {n : Nat} {v : TyVar} (hv : v.name.length ≤ 1) : v.Past n := by
  rintro ⟨stem, k, hs, -, hname⟩
  have hlen : v.name.length = 1 + (Nat.repr k).length := by
    rw [hname, String.length_append, hs]
    rfl
  have hpos : 0 < (Nat.repr k).length := Nat.length_repr_pos
  omega

/-- An environment that mentions `b`. -/
def knownParameter : Env := .singleton "f" (.mono (.var ⟨"b", .free⟩))

/-- The type of a selection that is followed by a parameter of known type; one of its variables has
no name, and one has the name of a variable issued before. -/
def selectThen : Ty :=
  .fn (.record (.rowExtend "x" (.var ⟨"a3", .free⟩) (.var ⟨"r", .lacks (.singleton "x")⟩)))
    (.fn (.var ⟨"b", .free⟩) (.var ⟨"", .free⟩))

/-- A run whose row variables have a long stem. -/
def longRowStem : Config := { rowStem := "row" }

theorem instantiate_generalize_selectThen :
    SingleStem longRowStem.typeStem ∧ knownParameter.Over (·.Past 9) ∧
      selectThen.Over (·.Past 9) ∧
      (knownParameter.generalize selectThen).instantiate longRowStem { issued := 9 } =
        .ok (.fn (.record (.rowExtend "x" (.var ⟨"a10", .free⟩)
            (.var ⟨"r11", .lacks (.singleton "x")⟩)))
          (.fn (.var ⟨"b", .free⟩) (.var ⟨"a9", .free⟩))) { issued := 12 } ∧
      ∃ t₁ st₁ t₂ st₂,
        (knownParameter.generalize selectThen).instantiate longRowStem { issued := 9 } =
          .ok t₁ st₁ ∧
        (knownParameter.generalize selectThen).instantiate longRowStem st₁ = .ok t₂ st₂ ∧
        (∃ ρ, knownParameter.Refreshes ((knownParameter.generalize selectThen).instantiate.issuedBy
          longRowStem { issued := 9 }) ρ selectThen t₁) ∧
        (∃ ρ, knownParameter.Refreshes ((knownParameter.generalize selectThen).instantiate.issuedBy
          longRowStem st₁) ρ selectThen t₂) ∧
        (∀ v ∈ t₁.freeVars, v ∈ t₂.freeVars → v ∈ knownParameter.freeVars) ∧
        (knownParameter.generalize selectThen).Renamed (knownParameter.generalize t₁) := by
  have hcfg : SingleStem longRowStem.typeStem := rfl
  have hall : selectThen.freeVars ∪ knownParameter.freeVars = .ofList [⟨"", .free⟩,
      ⟨"a" ++ toString 3, .free⟩, ⟨"b", .free⟩, ⟨"r", .lacks (.singleton "x")⟩] := by
    decide +kernel
  have hpast : ∀ v ∈ selectThen.freeVars ∪ knownParameter.freeVars, v.Past 9 := by
    intro v hv
    rw [hall, OrdSet.mem_ofList] at hv
    simp only [List.mem_cons, List.not_mem_nil, or_false] at hv
    rcases hv with rfl | rfl | rfl | rfl
    · exact TyVar.past_of_short (by decide)
    · exact TyVar.past_of_numbered rfl (by decide)
    · exact TyVar.past_of_short (by decide)
    · exact TyVar.past_of_short (by decide)
  have hΓ : knownParameter.Over (·.Past 9) := fun v hv => hpast v (OrdSet.mem_union.2 (.inr hv))
  have ht : selectThen.Over (·.Past 9) := fun v hv => hpast v (OrdSet.mem_union.2 (.inl hv))
  exact ⟨hcfg, hΓ, ht, rfl,
    instantiate_generalize longRowStem hcfg { issued := 9 } knownParameter hΓ selectThen ht⟩

end RowTyping
