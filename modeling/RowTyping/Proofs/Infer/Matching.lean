import Mathlib.SetTheory.Cardinal.Arithmetic
import RowTyping.Proofs.Infer.Supply
import RowTyping.Proofs.Unify.Renaming

/-!
# Matching the variables of two runs

Two runs of inference that differ in their stems, or in the number of variables issued before them,
do not stay in step name by name: `let` quantifies variables in the order of their names, so copies
of them may come in different orders. A `Matching` keeps a renaming together with the variables for
which it is settled so far. The runs agree on what to do with matched variables, and each step of
the runs leads to a larger matching (`M ≤ M'`).

A matching that `Tracks` two runs also takes what unification may still issue in the one to what it
may still issue in the other. So it carries unification along (`Matching.unify_twins`), and it can
always be enlarged by pairs of newly issued variables (`Matching.exists_enlarged`), whatever their
order: there are enough names for that (`Renaming.exists_shifting`).
-/

namespace RowTyping

/-! ## Renamings that exist -/

instance countable_string : Countable String :=
  Function.Injective.countable (f := fun x : String => x.toList.map Char.toNat) fun _ _ h =>
    String.toList_injective (List.map_injective_iff.2 (fun _ _ => Char.toNat_inj.1) h)

/-- The relation pairs variables of equal constraints one to one. -/
structure OneToOne (p : TyVar → TyVar → Prop) : Prop where
  eq_iff {u v u' v' : TyVar} : p u v → p u' v' → (u = u' ↔ v = v')
  constraint {u v : TyVar} : p u v → v.constraint = u.constraint

theorem OneToOne.or {p q : TyVar → TyVar → Prop} (hp : OneToOne p) (hq : OneToOne q)
    (hapart : ∀ u v u' v', p u v → q u' v' → u ≠ u' ∧ v ≠ v') :
    OneToOne fun u v => p u v ∨ q u v where
  eq_iff := by
    rintro u v u' v' (h | h) (h' | h')
    · exact hp.eq_iff h h'
    · obtain ⟨hu, hv⟩ := hapart _ _ _ _ h h'
      exact iff_of_false hu hv
    · obtain ⟨hu, hv⟩ := hapart _ _ _ _ h' h
      exact iff_of_false hu.symm hv.symm
    · exact hq.eq_iff h h'
  constraint h := h.elim hp.constraint hq.constraint

theorem OneToOne.symm {p : TyVar → TyVar → Prop} (hp : OneToOne p) :
    OneToOne fun u v => p v u where
  eq_iff h h' := (hp.eq_iff h h').symm
  constraint h := (hp.constraint h).symm

namespace Renaming

/-- The renaming that permutes names, for each constraint on its own. -/
def ofNames (g : Constraint → Equiv.Perm String) : Renaming where
  perm :=
    { toFun := fun v => ⟨g v.constraint v.name, v.constraint⟩
      invFun := fun v => ⟨(g v.constraint).symm v.name, v.constraint⟩
      left_inv := fun v => by simp
      right_inv := fun v => by simp }
  constraint _ := rfl

/-- A relation that pairs variables one to one belongs to a renaming, if there are names left on
both sides. -/
theorem exists_extending {p : TyVar → TyVar → Prop} (hp : OneToOne p)
    (hleft : ∀ c, {x | ∀ v, ¬p ⟨x, c⟩ v}.Infinite)
    (hright : ∀ c, {y | ∀ u, ¬p u ⟨y, c⟩}.Infinite) : ∃ ρ : Renaming, ∀ u v, p u v → ρ u = v := by
  have hnames : ∀ c, ∃ g : Equiv.Perm String, ∀ x y, p ⟨x, c⟩ ⟨y, c⟩ → g x = y := by
    intro c
    have hmem : ∀ x : {x | ∃ y, p ⟨x, c⟩ ⟨y, c⟩}, ∃ y, p ⟨x, c⟩ ⟨y, c⟩ := Subtype.property
    choose f hf using hmem
    have hinj : Function.Injective f := by
      intro x x' h
      have hx := (hp.eq_iff (hf x) (hf x')).2 (by rw [h])
      exact Subtype.ext (congrArg TyVar.name hx)
    have hx : Infinite ↑({x | ∃ y, p ⟨x, c⟩ ⟨y, c⟩}ᶜ) := by
      refine ((hleft c).mono ?_).to_subtype
      rintro x hx ⟨y, hy⟩
      exact hx _ hy
    have hy : Infinite ↑((Set.range f)ᶜ) := by
      refine ((hright c).mono ?_).to_subtype
      rintro _ hy ⟨x, rfl⟩
      exact hy _ (hf x)
    obtain ⟨g, hg⟩ := Cardinal.extend_function ⟨f, hinj⟩ nonempty_equiv_of_countable
    refine ⟨g, fun x y h => ?_⟩
    have hxy := (hp.eq_iff (hf ⟨x, y, h⟩) h).1 rfl
    exact (hg ⟨x, y, h⟩).trans (congrArg TyVar.name hxy)
  choose g hg using hnames
  refine ⟨ofNames g, ?_⟩
  rintro ⟨x, c⟩ ⟨y, d⟩ h
  obtain rfl : d = c := hp.constraint h
  exact congrArg (TyVar.mk · d) (hg d x y h)

end Renaming

namespace Config

theorem own_constraint (cfg : Config) (c : Constraint) (k : Nat) :
    (cfg.own c k).constraint = c := by
  cases c <;> rfl

theorem own_numbered (cfg : Config) (c : Constraint) (k : Nat) :
    (cfg.own c k).Numbered cfg.OwnStem (· = k) := by
  cases c with
  | free => exact cfg.typeVar_numbered k
  | lacks ls => exact cfg.rowVar_numbered k ls

variable {cfg : Config} (hcfg : cfg.SingleStems)

include hcfg

theorem own_not_past {c : Constraint} {m k : Nat} : ¬(cfg.own c (m + k)).Past m := by
  intro h
  refine h ((cfg.own_numbered c (m + k)).mono hcfg.ownStem fun j hj => ?_)
  omega

theorem own_inj {c d : Constraint} {j k : Nat} (h : cfg.own c j = cfg.own d k) : c = d ∧ j = k := by
  have hc : (cfg.own c j).constraint = (cfg.own d k).constraint := congrArg TyVar.constraint h
  rw [own_constraint, own_constraint] at hc
  have hj : (cfg.own d k).Numbered cfg.OwnStem (· = j) := h ▸ cfg.own_numbered c j
  obtain ⟨i, rfl, rfl⟩ := hj.meet hcfg.ownStem hcfg.ownStem (cfg.own_numbered d k)
  exact ⟨hc, rfl⟩

/-- There are infinitely many names that can be issued, but not by unification. -/
theorem infinite_foreign (c : Constraint) (m : Nat) :
    {x : String | ¬(TyVar.mk x c).Past m ∧ ∀ d k, cfg.own d k ≠ ⟨x, c⟩}.Infinite := by
  obtain ⟨stem, hstem, hforeign⟩ : ∃ stem, SingleStem stem ∧ ¬cfg.OwnStem stem := by
    have hcases : ("a" ≠ cfg.typeStem ∧ "a" ≠ cfg.stemFor cfg.rowStem) ∨
        ("b" ≠ cfg.typeStem ∧ "b" ≠ cfg.stemFor cfg.rowStem) ∨
        ("c" ≠ cfg.typeStem ∧ "c" ≠ cfg.stemFor cfg.rowStem) := by
      grind
    rcases hcases with h | h | h
    · exact ⟨"a", rfl, not_or.2 h⟩
    · exact ⟨"b", rfl, not_or.2 h⟩
    · exact ⟨"c", rfl, not_or.2 h⟩
  refine Set.infinite_of_injective_forall_mem (f := fun k : Nat => stem ++ toString (m + k)) ?_ ?_
  · intro j k h
    have := (name_unique hstem hstem h).2
    omega
  · intro k
    refine ⟨fun hp => hp ⟨stem, m + k, hstem, Nat.le_add_right m k, rfl⟩, fun d j h => ?_⟩
    obtain ⟨own, i, hown, -, hname⟩ := cfg.own_numbered d j
    rw [h] at hname
    exact hforeign ((name_unique hstem (hcfg.ownStem own hown) hname).1 ▸ hown)

end Config

/-- What unification issues in one run and in another, in order, is paired one to one. -/
theorem oneToOne_own {cfg cfg' : Config} (hcfg : cfg.SingleStems) (hcfg' : cfg'.SingleStems)
    (m m' : Nat) :
    OneToOne fun u v => ∃ c k, u = cfg.own c (m + k) ∧ v = cfg'.own c (m' + k) where
  eq_iff := by
    rintro _ _ _ _ ⟨c, k, rfl, rfl⟩ ⟨d, j, rfl, rfl⟩
    constructor
    · intro h
      obtain ⟨rfl, hk⟩ := Config.own_inj hcfg h
      obtain rfl : k = j := Nat.add_left_cancel hk
      rfl
    · intro h
      obtain ⟨rfl, hk⟩ := Config.own_inj hcfg' h
      obtain rfl : k = j := Nat.add_left_cancel hk
      rfl
  constraint := by
    rintro _ _ ⟨c, k, rfl, rfl⟩
    rw [Config.own_constraint, Config.own_constraint]

/-- Pairs of variables that two runs cannot issue any more extend to a renaming that takes what
unification issues in the one run to what it issues in the other. -/
theorem Renaming.exists_shifting {cfg cfg' : Config} (hcfg : cfg.SingleStems)
    (hcfg' : cfg'.SingleStems) {m m' : Nat} {q : TyVar → TyVar → Prop} (hq : OneToOne q)
    (hpast : ∀ {u v}, q u v → u.Past m ∧ v.Past m') :
    ∃ ρ : Renaming, (∀ u v, q u v → ρ u = v) ∧ ρ.Shifts cfg m cfg' m' := by
  have hp := hq.or (oneToOne_own hcfg hcfg' m m') <| by
    rintro u v _ _ h ⟨c, k, rfl, rfl⟩
    constructor
    · rintro rfl
      exact Config.own_not_past hcfg (hpast h).1
    · rintro rfl
      exact Config.own_not_past hcfg' (hpast h).2
  obtain ⟨ρ, hρ⟩ := Renaming.exists_extending hp
    (fun c => (Config.infinite_foreign hcfg c m).mono <| by
      rintro x ⟨hx, hown⟩ v (h | ⟨d, k, hxk, -⟩)
      · exact hx (hpast h).1
      · exact hown d _ hxk.symm)
    (fun c => (Config.infinite_foreign hcfg' c m').mono <| by
      rintro x ⟨hx, hown⟩ u (h | ⟨d, k, -, hxk⟩)
      · exact hx (hpast h).2
      · exact hown d _ hxk.symm)
  exact ⟨ρ, fun u v h => hρ u v (.inl h), fun c k => hρ _ _ (.inr ⟨c, k, rfl, rfl⟩)⟩

/-! ## Matchings -/

/-- A renaming, and the variables for which it is settled. -/
structure Matching where
  map : Renaming
  Has : TyVar → Prop

namespace Matching

/-- The larger matching has settled more variables, and none differently. -/
instance : Preorder Matching where
  le M M' := ∀ v, M.Has v → M'.Has v ∧ M'.map v = M.map v
  le_refl _ _ hv := ⟨hv, rfl⟩
  le_trans _ _ _ h h' v hv :=
    ⟨(h' v (h v hv).1).1, ((h' v (h v hv).1).2).trans (h v hv).2⟩

/-- The matching pairs the two variables. -/
def Pairs (M : Matching) (u v : TyVar) : Prop := M.Has u ∧ M.map u = v

theorem oneToOne_pairs (M : Matching) : OneToOne M.Pairs where
  eq_iff := by
    rintro u _ u' _ ⟨-, rfl⟩ ⟨-, rfl⟩
    exact M.map.apply_inj.symm
  constraint := by
    rintro u _ ⟨-, rfl⟩
    exact M.map.constraint_apply u

variable {M M' M₁ M₂ : Matching}

/-- The second type is the first one with its variables, all of them matched, renamed. -/
def Matches (M : Matching) (t t' : Ty) : Prop := t.Over M.Has ∧ t' = t.rename M.map

/-- The two substitutions give variables that `M` matches types that `M'` matches. -/
def Follows (M M' : Matching) (s s' : Subst) : Prop :=
  ∀ v, M.Has v → M'.Matches (s.app v) (s'.app (M.map v))

theorem matches_var {v : TyVar} (h : M.Has v) : M.Matches (.var v) (.var (M.map v)) :=
  ⟨Ty.over_var.2 h, rfl⟩

theorem Matches.fn {a r a' r' : Ty} (ha : M.Matches a a') (hr : M.Matches r r') :
    M.Matches (.fn a r) (.fn a' r') :=
  ⟨Ty.over_fn.2 ⟨ha.1, hr.1⟩, by rw [ha.2, hr.2]; rfl⟩

theorem Matches.mono {t t' : Ty} (h : M.Matches t t') (hM : M ≤ M') : M'.Matches t t' := by
  refine ⟨fun v hv => (hM v (h.1 v hv)).1, h.2.trans (Ty.rename_congr fun v hv => ?_)⟩
  exact (hM v (h.1 v hv)).2.symm

/-- Corresponding types come out of corresponding types when each variable of the one gets a type
that matches what its partner gets. -/
theorem matches_subst {ρ : Renaming} {t : Ty} {s s' : Subst}
    (h : ∀ v ∈ t.freeVars, M.Matches (s.app v) (s'.app (ρ v))) :
    M.Matches (t.subst s) ((t.rename ρ).subst s') := by
  refine ⟨fun v hv => ?_, Ty.subst_rename_of_app fun v hv => (h v hv).2⟩
  obtain ⟨u, hu, hvu⟩ := Ty.mem_freeVars_subst.1 hv
  exact (h u hu).1 v hvu

theorem Matches.subst {t t' : Ty} {s s' : Subst} (h : M.Matches t t') (hs : M.Follows M' s s') :
    M'.Matches (t.subst s) (t'.subst s') := by
  rw [h.2]
  exact matches_subst fun v hv => hs v (h.1 v hv)

theorem follows_empty (h : M ≤ M') : M.Follows M' .empty .empty :=
  fun _ hv => (matches_var hv).mono h

theorem Follows.of_le {s s' : Subst} (hs : M₁.Follows M' s s') (h : M ≤ M₁) :
    M.Follows M' s s' := by
  intro v hv
  rw [← (h v hv).2]
  exact hs v (h v hv).1

theorem Follows.compose {s₁ s₁' s₂ s₂' : Subst} (h₁ : M.Follows M₁ s₁ s₁')
    (h₂ : M₁.Follows M₂ s₂ s₂') (hd : ∀ v ∈ s₂.keys, v ∉ s₁.keys)
    (hd' : ∀ v ∈ s₂'.keys, v ∉ s₁'.keys) : M.Follows M₂ (s₂.compose s₁) (s₂'.compose s₁') := by
  intro v hv
  have happ := Ty.subst_compose hd (.var v)
  have happ' := Ty.subst_compose hd' (.var (M.map v))
  simp only [Ty.subst_var] at happ happ'
  rw [happ, happ']
  exact (h₁ v hv).subst h₂

/-! ## Matchings of two runs -/

/-- The matched variables are past in their runs, and what unification issues from now on in the one
run is renamed to what it issues in the other. -/
structure Tracks (M : Matching) (cfg : Config) (n : Nat) (cfg' : Config) (n' : Nat) : Prop where
  past {v : TyVar} : M.Has v → v.Past n
  past_map {v : TyVar} : M.Has v → (M.map v).Past n'
  shifts : M.map.Shifts cfg n cfg' n'

theorem Tracks.cast {cfg cfg' : Config} {n n' m m' : Nat} (h : M.Tracks cfg n cfg' n')
    (hn : n = m) (hn' : n' = m') : M.Tracks cfg m cfg' m' := hn ▸ hn' ▸ h

section Runs

variable {cfg cfg' : Config} (hcfg : cfg.SingleStems) (hcfg' : cfg'.SingleStems) {n n' : Nat}

include hcfg hcfg'

/-- A matching can be enlarged by pairs of new variables. -/
theorem exists_enlarged (hM : M.Tracks cfg n cfg' n') {k k' : Nat} {q : TyVar → TyVar → Prop}
    (hq : OneToOne q) (hnew : ∀ {u v}, q u v → ¬u.Past n ∧ ¬v.Past n')
    (hpast : ∀ {u v}, q u v → u.Past (n + k) ∧ v.Past (n' + k')) :
    ∃ M', M ≤ M' ∧ M'.Tracks cfg (n + k) cfg' (n' + k') ∧ ∀ u v, q u v → M'.Pairs u v := by
  have hone := M.oneToOne_pairs.or hq <| by
    rintro u _ u' v' ⟨h, rfl⟩ h'
    constructor
    · rintro rfl
      exact (hnew h').1 (hM.past h)
    · rintro rfl
      exact (hnew h').2 (hM.past_map h)
  have hp : ∀ {u v}, M.Pairs u v ∨ q u v → u.Past (n + k) ∧ v.Past (n' + k') := by
    rintro u v (⟨h, rfl⟩ | h)
    · exact ⟨(hM.past h).mono (Nat.le_add_right ..), (hM.past_map h).mono (Nat.le_add_right ..)⟩
    · exact hpast h
  obtain ⟨ρ, hρ, hshift⟩ := Renaming.exists_shifting hcfg hcfg' hone hp
  refine ⟨⟨ρ, fun u => ∃ v, M.Pairs u v ∨ q u v⟩, fun u hu => ?_, ⟨?_, ?_, hshift⟩, fun u v h => ?_⟩
  · exact ⟨⟨_, .inl ⟨hu, rfl⟩⟩, hρ _ _ (.inl ⟨hu, rfl⟩)⟩
  · rintro u ⟨v, hv⟩
    exact (hp hv).1
  · rintro u ⟨v, hv⟩
    show (ρ u).Past _
    rw [hρ u v hv]
    exact (hp hv).2
  · exact ⟨⟨v, .inr h⟩, hρ u v (.inr h)⟩

/-- Before anything is matched. -/
theorem exists_initial (n n' : Nat) : ∃ M : Matching, M.Tracks cfg n cfg' n' := by
  have hnone : OneToOne fun _ _ => False := ⟨fun h => h.elim, fun h => h.elim⟩
  obtain ⟨ρ, -, hρ⟩ := Renaming.exists_shifting hcfg hcfg' hnone fun h => h.elim
  exact ⟨⟨ρ, fun _ => False⟩, fun h => h.elim, fun h => h.elim, hρ⟩

end Runs

/-! ## Matched variables come from unification -/

/-- The matching that has settled more variables, as its renaming has them already. -/
def settle (M : Matching) (D : TyVar → Prop) : Matching := ⟨M.map, fun v => M.Has v ∨ D v⟩

theorem le_settle (M : Matching) (D : TyVar → Prop) : M ≤ M.settle D :=
  fun _ hv => ⟨.inl hv, rfl⟩

theorem Tracks.settle {cfg cfg' : Config} {n n' k : Nat} {D : TyVar → Prop}
    (h : M.Tracks cfg n cfg' n') (hD : ∀ v, D v → v.Past (n + k) ∧ (M.map v).Past (n' + k)) :
    (M.settle D).Tracks cfg (n + k) cfg' (n' + k) where
  past hv := hv.elim (fun hv => (h.past hv).mono (Nat.le_add_right ..)) fun hv => (hD _ hv).1
  past_map hv := hv.elim (fun hv => (h.past_map hv).mono (Nat.le_add_right ..)) fun hv =>
    (hD _ hv).2
  shifts := h.shifts.skip k

section Unify

variable {cfg cfg' : Config} (hcfg : cfg.SingleStems) (hcfg' : cfg'.SingleStems) {n n' : Nat}

include hcfg hcfg'

/-- The type variables that two runs issue next can be matched. -/
theorem exists_typeVar (hM : M.Tracks cfg n cfg' n') :
    ∃ M', M ≤ M' ∧ M'.Tracks cfg (n + 1) cfg' (n' + 1) ∧ M'.Has (cfg.typeVar n) ∧
      M'.map (cfg.typeVar n) = cfg'.typeVar n' := by
  have hv : M.map (cfg.typeVar n) = cfg'.typeVar n' := hM.shifts .free 0
  refine ⟨M.settle (· = cfg.typeVar n), M.le_settle _, hM.settle ?_, .inr rfl, hv⟩
  rintro _ rfl
  rw [hv]
  exact ⟨TyVar.typeVar_past hcfg, TyVar.typeVar_past hcfg'⟩

/-- Unification of matched types ends in the same way in two runs, and the matching extends to what
it issues and returns. -/
theorem unify_twins (hM : M.Tracks cfg n cfg' n') {t₁ t₁' t₂ t₂' : Ty} (h₁ : M.Matches t₁ t₁')
    (h₂ : M.Matches t₂ t₂') :
    Twins cfg n (unify t₁ t₂) cfg' n' (unify t₁' t₂')
      (fun vs vs' s s' => Unified cfg n t₁ t₂ vs s ∧ Unified cfg' n' t₁' t₂' vs' s' ∧
        vs'.length = vs.length ∧
        ∃ M', M ≤ M' ∧ M'.Tracks cfg (n + vs.length) cfg' (n' + vs'.length) ∧ M.Follows M' s s')
      fun vs vs' f f' => vs'.length = vs.length ∧ ∃ ρ : Renaming, f' = f.rename ρ := by
  obtain ⟨ho₁, rfl⟩ := h₁
  obtain ⟨ho₂, rfl⟩ := h₂
  refine ((unify_mirrors t₁ t₂ n n' hM.shifts).with_yields (unify_yields ..)
    (unify_yields ..)).mono ?_ ?_
  · rintro vs _ s _ ⟨⟨rfl, rfl⟩, hu, hu'⟩
    refine ⟨hu, hu', List.length_map _, M.settle (· ∈ vs), M.le_settle _, ?_, fun v hv => ?_⟩
    · rw [List.length_map]
      refine hM.settle fun v hv => ⟨?_, ?_⟩
      · exact TyVar.past_of_issued (hu.namedFrom.mono hcfg.ownStem) hv
      · have hp := TyVar.past_of_issued (hu'.namedFrom.mono hcfg'.ownStem)
          (List.mem_map_of_mem hv)
        rwa [List.length_map] at hp
    · have hs : s.Over (M.settle (· ∈ vs)).Has :=
        hu.over (fun v hv => .inl (ho₁ v hv)) (fun v hv => .inl (ho₂ v hv)) fun v hv => .inr hv
      have hv : (Ty.var v).Over (M.settle (· ∈ vs)).Has := Ty.over_var.2 (.inl hv)
      exact ⟨hv.subst hs, s.app_rename M.map v⟩
  · rintro vs _ f _ ⟨rfl, rfl⟩
    exact ⟨List.length_map _, M.map, rfl⟩

end Unify

end Matching

/-! ## Copies -/

namespace Config

theorem length_copies (cfg : Config) (stem : TyVar → String) (n : Nat) (us : List TyVar) :
    (cfg.copies stem n us).length = us.length := by
  induction us generalizing n with
  | nil => rfl
  | cons u us ih => exact congrArg (· + 1) (ih (n + 1))

/-- Different variables have different copies. -/
theorem app_copying_inj {cfg : Config} (hcfg : SingleStem cfg.typeStem) {stem : TyVar → String}
    (hstem : ∀ v, (stem v).length ≤ 1) {n : Nat} {us : List TyVar} {s : Subst} {u v : TyVar}
    (hu : u ∈ us) (hv : v ∈ us)
    (h : (cfg.copying stem n us s).app u = (cfg.copying stem n us s).app v) : u = v := by
  induction us generalizing n s with
  | nil => cases hu
  | cons w us ih =>
    -- The copy of the head is the only one with the number `n`.
    have hhead : ∀ {x y}, x ∈ us → y ∈ w :: us → y ∉ us →
        (cfg.copying stem n (w :: us) s).app x ≠ (cfg.copying stem n (w :: us) s).app y := by
      intro x y hx hy hy' he
      obtain rfl := (List.mem_cons.1 hy).resolve_right hy'
      obtain ⟨z, hz, -, hzx⟩ := cfg.app_copying_of_mem stem (n := n + 1)
        (s := s.insert y (.var (cfg.issue (stem y) y.constraint n))) hx
      have hzy : (cfg.copying stem n (y :: us) s).app y =
          .var (cfg.issue (stem y) y.constraint n) :=
        (cfg.app_copying_of_not_mem stem hy').trans
          (Subst.app_of_get? ((OrderedMap.get?_insert ..).trans (if_pos rfl)))
      obtain rfl := Ty.var.inj (hzx.symm.trans (he.trans hzy))
      have hn := (cfg.copies_namedFrom hcfg hstem (n + 1) us).numbered hz
      obtain ⟨j, hj, rfl⟩ := hn.meet (fun _ hs => hs) (fun _ hs => hs)
        (⟨_, n, cfg.single_stemFor hcfg (hstem y), rfl, rfl⟩ : TyVar.Numbered SingleStem (· = n) _)
      omega
    by_cases hu' : u ∈ us
    · by_cases hv' : v ∈ us
      · exact ih hu' hv' h
      · exact absurd h (hhead hu' hv hv')
    · by_cases hv' : v ∈ us
      · exact absurd h.symm (hhead hv' hu hu')
      · rw [(List.mem_cons.1 hu).resolve_right hu', (List.mem_cons.1 hv).resolve_right hv']

/-- The one variable is the copy of a variable of which `f` makes the other. -/
def CopyPair (cfg : Config) (stem : TyVar → String) (n : Nat) (us : List TyVar) (D : TyVar → Prop)
    (f : TyVar → TyVar) (w w' : TyVar) : Prop :=
  ∃ u, D u ∧ (cfg.copying stem n us .empty).app u = .var w ∧ f u = w'

section CopyPair

variable {cfg : Config} {stem : TyVar → String} {n : Nat} {us : List TyVar} {D : TyVar → Prop}
  (hD : ∀ u, D u → u ∈ us) {f : TyVar → TyVar}

include hD

theorem CopyPair.mem_copies {w w' : TyVar} (h : cfg.CopyPair stem n us D f w w') :
    w ∈ cfg.copies stem n us := by
  obtain ⟨u, hu, hw, -⟩ := h
  obtain ⟨z, hz, -, hzu⟩ := cfg.app_copying_of_mem stem (n := n) (s := .empty) (hD u hu)
  obtain rfl := Ty.var.inj (hzu.symm.trans hw)
  exact hz

theorem oneToOne_copyPair (hcfg : SingleStem cfg.typeStem) (hstem : ∀ v, (stem v).length ≤ 1)
    (hinj : ∀ u v, D u → D v → f u = f v → u = v)
    (hc : ∀ u, D u → (f u).constraint = u.constraint) :
    OneToOne (cfg.CopyPair stem n us D f) where
  eq_iff := by
    rintro w _ z _ ⟨u, hu, hw, rfl⟩ ⟨v, hv, hz, rfl⟩
    constructor
    · rintro rfl
      rw [app_copying_inj hcfg hstem (hD u hu) (hD v hv) (hw.trans hz.symm)]
    · intro he
      obtain rfl := hinj u v hu hv he
      exact Ty.var.inj (hw.symm.trans hz)
  constraint := by
    rintro w _ ⟨u, hu, hw, rfl⟩
    obtain ⟨z, -, hcz, hzu⟩ := cfg.app_copying_of_mem stem (n := n) (s := .empty) (hD u hu)
    obtain rfl := Ty.var.inj (hzu.symm.trans hw)
    exact (hc u hu).trans hcz.symm

end CopyPair

end Config

namespace Matching

variable {cfg cfg' : Config} (hcfg : cfg.SingleStems) (hcfg' : cfg'.SingleStems) {n n' : Nat}
  {M : Matching} (hM : M.Tracks cfg n cfg' n') {stem stem' : TyVar → String}
  (hstem : ∀ v, (stem v).length ≤ 1) (hstem' : ∀ v, (stem' v).length ≤ 1) {us us' : List TyVar}

include hcfg hcfg' hM hstem

/-- The copies of variables in one run can be matched with new variables of the other run. -/
theorem exists_copies {D : TyVar → Prop} (hD : ∀ u, D u → u ∈ us) {f : TyVar → TyVar}
    (hinj : ∀ u v, D u → D v → f u = f v → u = v)
    (hc : ∀ u, D u → (f u).constraint = u.constraint) {k' : Nat}
    (hnew : ∀ u, D u → ¬(f u).Past n') (hpast : ∀ u, D u → (f u).Past (n' + k')) :
    ∃ M', M ≤ M' ∧ M'.Tracks cfg (n + (cfg.copies stem n us).length) cfg' (n' + k') ∧
      ∀ u, D u → M'.Matches ((cfg.copying stem n us .empty).app u) (.var (f u)) := by
  have hone : OneToOne (cfg.CopyPair stem n us D f) :=
    Config.oneToOne_copyPair hD hcfg.type hstem hinj hc
  have hnamed := cfg.copies_namedFrom hcfg.type hstem n us
  obtain ⟨M', hle, htracks, hpairs⟩ : ∃ M', M ≤ M' ∧
      M'.Tracks cfg (n + (cfg.copies stem n us).length) cfg' (n' + k') ∧
      ∀ w w', cfg.CopyPair stem n us D f w w' → M'.Pairs w w' := by
    refine exists_enlarged hcfg hcfg' hM hone ?_ ?_
    · intro w w' h
      have hw := h.mem_copies hD
      obtain ⟨u, hu, -, rfl⟩ := h
      exact ⟨fun hp => hp.not_issued hnamed hw, hnew u hu⟩
    · intro w w' h
      have hw := h.mem_copies hD
      obtain ⟨u, hu, -, rfl⟩ := h
      exact ⟨TyVar.past_of_issued hnamed hw, hpast u hu⟩
  refine ⟨M', hle, htracks, fun u hu => ?_⟩
  obtain ⟨w, -, -, hw⟩ := cfg.app_copying_of_mem stem (n := n) (s := .empty) (hD u hu)
  obtain ⟨hhas, hmap⟩ := hpairs w (f u) ⟨u, hu, hw, rfl⟩
  rw [hw, ← hmap]
  exact matches_var hhas

include hstem'

/-- Copies of corresponding variables can be matched. -/
theorem exists_both_copies (ρ : Renaming) (hρ : ∀ u ∈ us, ρ u ∈ us') :
    ∃ M', M ≤ M' ∧
      M'.Tracks cfg (n + (cfg.copies stem n us).length) cfg'
        (n' + (cfg'.copies stem' n' us').length) ∧
      ∀ u ∈ us, M'.Matches ((cfg.copying stem n us .empty).app u)
        ((cfg'.copying stem' n' us' .empty).app (ρ u)) := by
  have hcopy : ∀ u ∈ us, ∃ w, w ∈ cfg'.copies stem' n' us' ∧ w.constraint = (ρ u).constraint ∧
      (cfg'.copying stem' n' us' .empty).app (ρ u) = .var w := fun u hu =>
    cfg'.app_copying_of_mem stem' (hρ u hu)
  have : Nonempty TyVar := ⟨cfg.typeVar n⟩
  choose! f hf hc happ using hcopy
  have hinj : ∀ u v, u ∈ us → v ∈ us → f u = f v → u = v := by
    intro u v hu hv he
    have happ' : (cfg'.copying stem' n' us' .empty).app (ρ u) =
        (cfg'.copying stem' n' us' .empty).app (ρ v) := by
      rw [happ u hu, happ v hv, he]
    exact ρ.apply_inj.1 (Config.app_copying_inj hcfg'.type hstem' (hρ u hu) (hρ v hv) happ')
  have hnamed := cfg'.copies_namedFrom hcfg'.type hstem' n' us'
  obtain ⟨M', hle, htracks, hmatch⟩ := exists_copies hcfg hcfg' hM hstem (fun _ hu => hu) hinj
    (fun u hu => (hc u hu).trans (ρ.constraint_apply u))
    (fun u hu hp => hp.not_issued hnamed (hf u hu))
    (fun u hu => TyVar.past_of_issued hnamed (hf u hu))
  refine ⟨M', hle, htracks, fun u hu => ?_⟩
  rw [happ u hu]
  exact hmatch u hu

end Matching

end RowTyping
