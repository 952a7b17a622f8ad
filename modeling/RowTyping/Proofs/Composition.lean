import RowTyping.Proofs.Schemes

/-!
# Composition and capture

Composition keeps the entries of the newer substitution where both have one. So it is sequential
application exactly where that makes no difference: the newer substitution has to *uphold* the older
one, that is, to give a variable that both bind what it makes of the older type (`Subst.Upholds`).
The two ways to compose three substitutions list the same variables in the same order; they are
equal when the two newer ones are upheld on the types of the oldest.

Substitution into a scheme does not rename the quantified variables. What becomes free is what the
types of the free variables bring along (`Subst.image`), less the quantified variables: a variable
of one of these types that has the name of a quantified one is captured.
-/

namespace RowTyping

/-! ## Maps with the same keys -/

namespace OrderedMap

universe u v

variable {κ : Type u} {α : Type v} [DecidableEq κ]

theorem eq_of_lookup_eq {l l' : List (κ × α)} (hk : l.map Prod.fst = l'.map Prod.fst)
    (hl : (l.map Prod.fst).Nodup) (h : ∀ k, l.lookup k = l'.lookup k) : l = l' := by
  induction l generalizing l' with
  | nil => exact (List.map_eq_nil_iff.1 hk.symm).symm
  | cons e l ih =>
    obtain ⟨i, a⟩ := e
    cases l' with
    | nil => cases hk
    | cons e' l' =>
      obtain ⟨j, b⟩ := e'
      obtain ⟨rfl, hk'⟩ := List.cons.inj hk
      obtain ⟨hi, hl'⟩ := List.nodup_cons.1 hl
      have hab := h i
      rw [lookup_cons, lookup_cons, if_pos rfl, if_pos rfl] at hab
      rw [Option.some.inj hab, ih hk' hl' fun k => ?_]
      -- Away from the first key both lists agree; at the first key neither tail has an entry.
      by_cases hki : k = i
      · subst hki
        have hnone : ∀ {m : List (κ × α)}, k ∉ m.map Prod.fst → m.lookup k = none := by
          intro m hm
          exact List.lookup_eq_none_iff.2 fun p hp => by
            simpa using fun he : k = p.1 => hm (he ▸ List.mem_map_of_mem hp)
        rw [hnone hi, hnone (hk' ▸ hi)]
      · have hk := h k
        rwa [lookup_cons, lookup_cons, if_neg hki, if_neg hki] at hk

/-- A map is determined by the order of its keys and by their values. -/
theorem ext_get? {m n : OrderedMap κ α} (hk : m.keys = n.keys) (h : ∀ k, m.get? k = n.get? k) :
    m = n :=
  ext (eq_of_lookup_eq hk m.nodup h)

theorem keys_insertAll {l : List (κ × α)} (hl : (l.map Prod.fst).Nodup) (m : OrderedMap κ α) :
    (m.insertAll l).keys = m.keys ++ (l.map Prod.fst).filter fun k => !decide (k ∈ m.keys) := by
  induction l generalizing m with
  | nil => simp [insertAll]
  | cons e l ih =>
    obtain ⟨he, hl'⟩ := List.nodup_cons.1 hl
    rw [insertAll_cons, ih hl', keys_insert, List.map_cons]
    split
    · next hk => rw [List.filter_cons_of_neg (by simpa using hk)]
    · next hk =>
      rw [List.filter_cons_of_pos (by simpa using hk), List.append_assoc, List.singleton_append]
      congr 2
      refine List.filter_congr fun k hkl => ?_
      have hne : k ≠ e.1 := fun h => he (h ▸ hkl)
      simp [hne]

end OrderedMap

/-! ## Sequential application -/

/-- Doing in one step what two substitutions do in two is a matter of the variables alone. -/
theorem Ty.subst_eq_subst_subst {s newer older : Subst} {t : Ty} :
    t.subst s = (t.subst older).subst newer ↔
      ∀ v ∈ t.freeVars, s.app v = (older.app v).subst newer := by
  induction t with
  | var w => simp [subst_var]
  | int => simp [subst]
  | bool => simp [subst]
  | rowEmpty => simp [subst]
  | record r ih => simpa [subst] using ih
  | fn a r iha ihr => simp [subst, iha, ihr, or_imp, forall_and]
  | rowExtend l f t ihf iht => simp [subst, ihf, iht, or_imp, forall_and]

namespace Subst

/-- Where both substitutions bind one of the variables, the newer one gives it what it makes of the
type that the older one gives it. -/
def Upholds (newer older : Subst) (vs : TyVars) : Prop :=
  ∀ v ∈ vs.toList, v ∈ newer.keys → v ∈ older.keys → newer.app v = (older.app v).subst newer

instance upholdsDecidable (newer older : Subst) (vs : TyVars) :
    Decidable (newer.Upholds older vs) :=
  inferInstanceAs (Decidable (∀ v ∈ vs.toList, v ∈ newer.keys → v ∈ older.keys →
    newer.app v = (older.app v).subst newer))

theorem app_compose_eq_iff {newer older : Subst} {v : TyVar} :
    (newer.compose older).app v = (older.app v).subst newer ↔
      (v ∈ newer.keys → v ∈ older.keys → newer.app v = (older.app v).subst newer) := by
  rw [app_compose]
  split
  · next hn =>
    refine ⟨fun h _ _ => h, fun h => ?_⟩
    by_cases ho : v ∈ older.keys
    · exact h hn ho
    · rw [app_of_not_mem ho, Ty.subst_var]
  · next hn => exact ⟨fun _ h => absurd h hn, fun _ => rfl⟩

theorem subst_compose_iff {newer older : Subst} {t : Ty} :
    t.subst (newer.compose older) = (t.subst older).subst newer ↔
      newer.Upholds older t.freeVars :=
  Ty.subst_eq_subst_subst.trans (forall₂_congr fun _ _ => app_compose_eq_iff)

/-- None of the variables occurs in a type of the substitution. -/
def Avoids (s : Subst) (us : List TyVar) : Prop := ∀ u ∈ us, ∀ t ∈ s.values, u ∉ t.freeVars

instance avoidsDecidable (s : Subst) (us : List TyVar) : Decidable (s.Avoids us) :=
  inferInstanceAs (Decidable (∀ u ∈ us, ∀ t ∈ s.values, u ∉ t.freeVars))

/-- What a substitution that avoids the quantified variables puts in is not protected from the next
one. -/
theorem Avoids.subst_app {newer older : Subst} {σ : Scheme} (h : older.Avoids σ.vars) {v : TyVar}
    (hv : v ∉ σ.vars) :
    (older.app v).subst (newer.filterKeys fun u => !decide (u ∈ σ.vars)) =
      (older.app v).subst newer := by
  refine Ty.subst_congr fun u hu => ?_
  rw [Scheme.app_filterKeys, if_neg fun hus => ?_]
  cases hget : older.get? v with
  | none =>
    rw [app, hget, Option.getD_none, Ty.mem_freeVars_var] at hu
    exact hv (hu ▸ hus)
  | some t =>
    rw [app_of_get? hget] at hu
    exact h u hus t (OrderedMap.mem_values_iff.2 ⟨v, hget⟩) hu

theorem scheme_subst_compose_iff {newer older : Subst} {σ : Scheme} (h : older.Avoids σ.vars) :
    σ.subst (newer.compose older) = (σ.subst older).subst newer ↔
      newer.Upholds older σ.freeVars := by
  have hbody : σ.subst (newer.compose older) = (σ.subst older).subst newer ↔
      σ.body.subst ((newer.compose older).filterKeys fun u => !decide (u ∈ σ.vars)) =
        (σ.body.subst (older.filterKeys fun u => !decide (u ∈ σ.vars))).subst
          (newer.filterKeys fun u => !decide (u ∈ σ.vars)) :=
    ⟨congrArg Scheme.body, fun h => congrArg (Scheme.mk σ.vars) h⟩
  refine hbody.trans (Ty.subst_eq_subst_subst.trans ?_)
  simp only [Scheme.app_filterKeys]
  constructor
  · intro hall v hv
    obtain ⟨hvb, hvs⟩ := Scheme.mem_freeVars.1 hv
    have happ := hall v hvb
    rw [if_neg hvs, if_neg hvs, h.subst_app hvs] at happ
    exact app_compose_eq_iff.1 happ
  · intro hall v hvb
    by_cases hvs : v ∈ σ.vars
    · rw [if_pos hvs, if_pos hvs, Ty.subst_var, Scheme.app_filterKeys, if_pos hvs]
    · rw [if_neg hvs, if_neg hvs, h.subst_app hvs]
      exact app_compose_eq_iff.2 (hall v (Scheme.mem_freeVars.2 ⟨hvb, hvs⟩))

theorem env_subst_compose_iff {newer older : Subst} {Γ : Env}
    (h : ∀ σ ∈ Γ.values, older.Avoids σ.vars) :
    Γ.subst (newer.compose older) = (Γ.subst older).subst newer ↔
      newer.Upholds older Γ.freeVars := by
  have hschemes : Γ.subst (newer.compose older) = (Γ.subst older).subst newer ↔
      ∀ x σ, Γ.get? x = some σ → σ.subst (newer.compose older) = (σ.subst older).subst newer := by
    constructor
    · intro he x σ hx
      have hget := congrArg (fun Δ => OrderedMap.get? Δ x) he
      simpa [Env.get?_subst, hx] using hget
    · intro hall
      refine OrderedMap.ext_get? (by simp [Env.subst]) fun x => ?_
      rw [Env.get?_subst, Env.get?_subst, Env.get?_subst, Option.map_map]
      exact Option.map_congr fun σ hx => hall x σ hx
  refine hschemes.trans ⟨fun hall v hv => ?_, fun hall x σ hx => ?_⟩
  · obtain ⟨x, σ, hx, hvσ⟩ := Env.mem_freeVars.1 hv
    have hσ := h σ (OrderedMap.mem_values_iff.2 ⟨x, hx⟩)
    exact (scheme_subst_compose_iff hσ).1 (hall x σ hx) v hvσ
  · have hσ := h σ (OrderedMap.mem_values_iff.2 ⟨x, hx⟩)
    exact (scheme_subst_compose_iff hσ).2 fun v hv => hall v (Env.mem_freeVars.2 ⟨x, σ, hx, hv⟩)

/-! ## Three substitutions -/

theorem keys_compose (newer older : Subst) :
    (newer.compose older).keys =
      older.keys ++ newer.keys.filter fun v => !decide (v ∈ older.keys) := by
  rw [compose, OrderedMap.keys_insertAll newer.nodup, OrderedMap.keys_map]
  rfl

/-- However three substitutions are composed, their variables come in the order of their age. -/
theorem keys_compose_assoc (newer middle older : Subst) :
    (newer.compose (middle.compose older)).keys = ((newer.compose middle).compose older).keys := by
  rw [keys_compose newer (middle.compose older), keys_compose middle older,
    keys_compose (newer.compose middle) older, keys_compose newer middle, List.filter_append,
    List.filter_filter, List.append_assoc]
  congr 2
  refine List.filter_congr fun v _ => ?_
  by_cases ho : v ∈ older.keys <;> by_cases hm : v ∈ middle.keys <;> simp [ho, hm]

theorem compose_assoc_iff {newer middle older : Subst} :
    newer.compose (middle.compose older) = (newer.compose middle).compose older ↔
      ∀ v t, older.get? v = some t → v ∉ newer.keys → v ∉ middle.keys →
        newer.Upholds middle t.freeVars := by
  constructor
  · intro he v t ht hn hm
    have hget := congrArg (fun s => OrderedMap.get? s v) he
    simp only [get?_compose, OrderedMap.get?_eq_none_iff.2 hn, OrderedMap.get?_eq_none_iff.2 hm, ht,
      Option.map_some, Option.map_none, Option.none_or] at hget
    exact subst_compose_iff.1 (Option.some.inj hget).symm
  · intro h
    refine OrderedMap.ext_get? (keys_compose_assoc ..) fun v => ?_
    simp only [get?_compose]
    cases hn : newer.get? v with
    | some a => rfl
    | none =>
      cases hm : middle.get? v with
      | some b => rfl
      | none =>
        cases ho : older.get? v with
        | none => rfl
        | some t =>
          have hup := h v t ho (OrderedMap.get?_eq_none_iff.1 hn) (OrderedMap.get?_eq_none_iff.1 hm)
          exact congrArg some (subst_compose_iff.2 hup).symm

/-- Composition is sequential application exactly where the newer substitution upholds the older
one: on a type, on a scheme and on an environment, as long as the older substitution avoids the
quantified variables. Composition of three substitutions lists the variables in one order, and is
associative exactly where the newer two are upheld on the types of the oldest. The substitution
without entries is neutral on both sides. -/
theorem compose_sequential (newer middle older : Subst) :
    (∀ t : Ty, t.subst (newer.compose older) = (t.subst older).subst newer ↔
        newer.Upholds older t.freeVars) ∧
      (∀ σ : Scheme, older.Avoids σ.vars →
        (σ.subst (newer.compose older) = (σ.subst older).subst newer ↔
          newer.Upholds older σ.freeVars)) ∧
      (∀ Γ : Env, (∀ σ ∈ Γ.values, older.Avoids σ.vars) →
        (Γ.subst (newer.compose older) = (Γ.subst older).subst newer ↔
          newer.Upholds older Γ.freeVars)) ∧
      (newer.compose (middle.compose older)).keys = ((newer.compose middle).compose older).keys ∧
      (newer.compose (middle.compose older) = (newer.compose middle).compose older ↔
        ∀ v t, older.get? v = some t → v ∉ newer.keys → v ∉ middle.keys →
          newer.Upholds middle t.freeVars) ∧
      compose .empty older = older ∧ older.compose .empty = older :=
  ⟨fun _ => subst_compose_iff, fun _ hσ => scheme_subst_compose_iff hσ,
    fun _ hΓ => env_subst_compose_iff hΓ, keys_compose_assoc newer middle older, compose_assoc_iff,
    empty_compose older, compose_empty older⟩

/-- The type `a` is a number, and so is `b`. -/
def numbers : Subst := (OrderedMap.singleton ⟨"b", .free⟩ .int).insert ⟨"a", .free⟩ .int

/-- The type `a` is `b`. -/
def aliased : Subst := .singleton ⟨"a", .free⟩ (.var ⟨"b", .free⟩)

/-- Functions from any type `c` to `a`. -/
def constantScheme : Scheme := ⟨[⟨"c", .free⟩], .fn (.var ⟨"c", .free⟩) (.var ⟨"a", .free⟩)⟩

theorem compose_sequential_aliased :
    aliased.Avoids constantScheme.vars ∧
      constantScheme.subst (numbers.compose aliased) =
        (constantScheme.subst aliased).subst numbers ∧
      (∀ σ ∈ (OrderedMap.singleton "k" constantScheme).values, aliased.Avoids σ.vars) ∧
      Env.subst (numbers.compose aliased) (.singleton "k" constantScheme) =
        (Env.subst aliased (.singleton "k" constantScheme)).subst numbers := by
  obtain ⟨-, hscheme, henv, -⟩ := compose_sequential numbers aliased aliased
  have hσ : aliased.Avoids constantScheme.vars := by decide
  have hΓ : ∀ σ ∈ (OrderedMap.singleton "k" constantScheme).values, aliased.Avoids σ.vars := by
    decide
  exact ⟨hσ, (hscheme constantScheme hσ).2 (by decide), hΓ, (henv _ hΓ).2 (by decide)⟩

/-- Where two substitutions bind `a` to different types, the newer one decides alone: their
composition is not the one after the other, and composing them with a third one is a matter of
order. -/
theorem compose_not_sequential :
    (Ty.var ⟨"a", .free⟩).subst
        (compose (.singleton ⟨"a", .free⟩ .int) (.singleton ⟨"a", .free⟩ .bool)) ≠
      ((Ty.var ⟨"a", .free⟩).subst (.singleton ⟨"a", .free⟩ .bool)).subst
        (.singleton ⟨"a", .free⟩ .int) ∧
      compose (.singleton ⟨"a", .free⟩ .int) (compose (.singleton ⟨"a", .free⟩ .bool)
          (.singleton ⟨"b", .free⟩ (.var ⟨"a", .free⟩))) ≠
        compose (compose (.singleton ⟨"a", .free⟩ .int) (.singleton ⟨"a", .free⟩ .bool))
          (.singleton ⟨"b", .free⟩ (.var ⟨"a", .free⟩)) := by
  decide

end Subst

/-! ## Capture -/

/-- The variables of the types that a substitution puts in the place of some variables. -/
def Subst.image (s : Subst) (vs : TyVars) : TyVars :=
  vs.toList.foldr (fun v ws => (s.app v).freeVars ∪ ws) .empty

theorem Subst.mem_image {s : Subst} {vs : TyVars} {v : TyVar} :
    v ∈ s.image vs ↔ ∃ u ∈ vs, v ∈ (s.app u).freeVars := by
  have hfold : ∀ us : List TyVar, v ∈ us.foldr (fun u ws => (s.app u).freeVars ∪ ws) .empty ↔
      ∃ u ∈ us, v ∈ (s.app u).freeVars := by
    intro us
    induction us with
    | nil => simp
    | cons u us ih => simp [ih]
  exact hfold vs.toList

namespace Scheme

/-- What is free in a substituted scheme is what the types of its free variables bring along, less
its quantified variables. So it is all that they bring along exactly when none of it is
quantified. -/
theorem freeVars_subst_image (s : Subst) (σ : Scheme) :
    (σ.subst s).freeVars = s.image σ.freeVars \ .ofList σ.vars ∧
      ((σ.subst s).freeVars = s.image σ.freeVars ↔
        ∀ u ∈ σ.freeVars, ∀ v ∈ (s.app u).freeVars, v ∉ σ.vars) := by
  have hfree : (σ.subst s).freeVars = s.image σ.freeVars \ .ofList σ.vars := by
    refine OrdSet.ext fun v => ?_
    rw [mem_freeVars_subst, OrdSet.mem_diff, Subst.mem_image, OrdSet.mem_ofList, and_comm]
  refine ⟨hfree, ?_⟩
  constructor
  · intro he u hu v hv
    have hmem : v ∈ (σ.subst s).freeVars := he ▸ Subst.mem_image.2 ⟨u, hu, hv⟩
    exact (mem_freeVars_subst.1 hmem).1
  · intro h
    refine OrdSet.ext fun v => ?_
    rw [mem_freeVars_subst, Subst.mem_image]
    refine ⟨And.right, fun hv => ⟨?_, hv⟩⟩
    obtain ⟨u, hu, hvu⟩ := hv
    exact h u hu v hvu

/-- A type `c` that is put in the place of `b` is captured by a scheme that quantifies `c`. -/
theorem subst_captures :
    (Scheme.subst (.singleton ⟨"b", .free⟩ (.var ⟨"c", .free⟩))
        ⟨[⟨"c", .free⟩], .fn (.var ⟨"c", .free⟩) (.var ⟨"b", .free⟩)⟩).freeVars ≠
      Subst.image (.singleton ⟨"b", .free⟩ (.var ⟨"c", .free⟩))
        (Scheme.freeVars ⟨[⟨"c", .free⟩], .fn (.var ⟨"c", .free⟩) (.var ⟨"b", .free⟩)⟩) := by
  decide

end Scheme

end RowTyping
