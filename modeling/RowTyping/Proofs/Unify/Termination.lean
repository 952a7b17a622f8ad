import RowTyping.Proofs.Unify.Depth

/-!
# Unification ends

`unifyWithin d` follows the recursion of unification down to the depth `d` and gives up there. In a
run that issues only new variables the bound that `unify` computes is never met, for any two types
(`unify_ne_outOfFuel`). A larger bound would change nothing (`unifyWithin_eq_unify`), and `unify`
obeys the equation of the recursion without any bound (`unify_eq_unifyStep`).

Giving up counts as no answer: `Approximates cfg n x y` says that `x` gives up or `y` does the same
as `x`. One step of unification is monotone in the unifier that it calls
(`unifyStep_approximates`), so the answers at growing depths approximate one another.
-/

namespace RowTyping

open InferM

/-! ## Approximation -/

/-- When `n` variables have been issued, the first computation runs out of depth, or the second one
does the same as the first. -/
def Approximates (cfg : Config) {α : Type} (n : Nat) (x y : InferM α) : Prop :=
  ∀ st, st.issued = n → (∃ st', x cfg st = .error .outOfFuel st') ∨ y cfg st = x cfg st

namespace Approximates

variable {cfg : Config} {n : Nat} {α β : Type} {x y z : InferM α}

theorem refl (x : InferM α) : Approximates cfg n x x := fun _ _ => .inr rfl

theorem outOfFuel (y : InferM α) : Approximates cfg n (throw .outOfFuel) y :=
  fun st _ => .inl ⟨st, rfl⟩

theorem trans (h : Approximates cfg n x y) (h' : Approximates cfg n y z) :
    Approximates cfg n x z := by
  intro st hn
  rcases h st hn with hx | hxy
  · exact .inl hx
  · rcases h' st hn with ⟨st', hy⟩ | hyz
    · exact .inl ⟨st', hxy.symm.trans hy⟩
    · exact .inr (hyz.trans hxy)

/-- The parts of a sequence may be approximated one by one, the second part for the answers of the
first. -/
theorem bind {f g : α → InferM β} {P : List TyVar → α → Prop} {F : List TyVar → Fault → Prop}
    (h : Approximates cfg n x y) (hx : Yields cfg x n P F)
    (hfg : ∀ vs a, P vs a → Approximates cfg (n + vs.length) (f a) (g a)) :
    Approximates cfg n (x >>= f) (y >>= g) := by
  intro st hn
  simp only [bind_apply]
  rcases h st hn with ⟨st', hst⟩ | hst
  · exact .inl ⟨st', by rw [hst]⟩
  · rw [hst]
    cases hr : x cfg st with
    | ok a st' =>
      obtain ⟨ha, hi⟩ := hx.of_ok hn hr
      exact hfg _ a ha st' (by rw [hi.issued, hn])
    | error e st' => exact .inr rfl

theorem trace_bind {e : TraceEvent} (he : e.freshVar? = none) (h : Approximates cfg n x y) :
    Approximates cfg n (trace e >>= fun _ => x) (trace e >>= fun _ => y) := by
  have hyields : Yields cfg (trace e) n (fun vs _ => vs = []) fun _ _ => False :=
    ⟨[], .ok (), rfl, Ends.trace he⟩
  refine (refl _).bind hyields ?_
  intro vs _ hvs
  rw [hvs]
  exact h

end Approximates

/-! ## One step -/

section Step

variable {cfg : Config} {d n : Nat} {unify : Ty → Ty → InferM Subst}

theorem unifyRows_approximates {label : String} {field tail row : Ty}
    (hg : ∀ m u₁ u₂, Leads cfg n (.rowExtend label field tail) row m u₁ u₂ →
      Approximates cfg m (unifyWithin d u₁ u₂) (unify u₁ u₂)) :
    Approximates cfg n (unifyRows (unifyWithin d) label field tail row)
      (unifyRows unify label field tail row) := by
  have hproper : ∀ t, Yields cfg (properRow t) n (fun vs _ => vs = []) fun _ _ => True := fun t =>
    Ty.properRow_yields t (fun _ _ => rfl) fun _ _ => trivial
  unfold unifyRows
  refine (Approximates.refl _).bind (hproper _) ?_
  intro _ r₁ hnone
  subst hnone
  refine (Approximates.refl _).bind (hproper _) ?_
  intro _ _ hnone
  subst hnone
  refine (Approximates.refl _).bind (expose_yields row label) ?_
  intro vs e he
  -- The test for a shared end comes before any call, so both sides take the same branch.
  dsimp only
  cases (r₁.tail.toList ++ e.rest.rowEndVar?.toList).find? (OrderedMap.contains e.subst) with
  | some v => exact .refl _
  | none =>
    cases he with
    | found pre hrow hl =>
      subst hrow
      simp only [Ty.subst_empty, Subst.compose_empty]
      refine (hg _ _ _ (.foundField hl)).bind (unifyWithin_yields ..) fun vs₁ s₁ hs₁ => ?_
      exact (hg _ _ _ (.foundTail hl hs₁)).bind (unifyWithin_yields ..) fun _ _ _ => .refl _
    | opened pre hrow _ hl hw =>
      subst hrow
      refine (hg _ _ _ (.openedField hl hw)).bind (unifyWithin_yields ..) fun vs₁ s₁ hs₁ => ?_
      exact (hg _ _ _ (.openedTail hl hw hs₁)).bind (unifyWithin_yields ..) fun _ _ _ => .refl _

/-- A step is monotone in the unifier that it calls, and only the calls that it can lead to
count. -/
theorem unifyStep_approximates {t₁ t₂ : Ty}
    (hg : ∀ m u₁ u₂, Leads cfg n t₁ t₂ m u₁ u₂ →
      Approximates cfg m (unifyWithin d u₁ u₂) (unify u₁ u₂)) :
    Approximates cfg n (unifyStep (unifyWithin d) t₁ t₂) (unifyStep unify t₁ t₂) := by
  refine .trace_bind rfl ?_
  cases t₁ with
  | fn a₁ r₁ =>
    cases t₂ with
    | fn a₂ r₂ =>
      refine (hg _ _ _ .fnArg).bind (unifyWithin_yields ..) fun vs₁ s₁ hs₁ => ?_
      exact (hg _ _ _ (.fnRet hs₁)).bind (unifyWithin_yields ..) fun _ _ _ => .refl _
    | _ => exact .refl _
  | record r₁ =>
    cases t₂ with
    | record r₂ => exact hg _ _ _ .record
    | _ => exact .refl _
  | rowExtend l f t =>
    cases t₂ with
    | rowExtend l' f' t' => exact unifyRows_approximates hg
    | rowEmpty => exact unifyRows_approximates hg
    | _ => exact .refl _
  | _ => cases t₂ <;> exact .refl _

end Step

/-! ## The bound is never met -/

theorem unifyWithin_approximates_succ (cfg : Config) (d n : Nat) (t₁ t₂ : Ty) :
    Approximates cfg n (unifyWithin d t₁ t₂) (unifyWithin (d + 1) t₁ t₂) := by
  induction d generalizing n t₁ t₂ with
  | zero => exact .outOfFuel _
  | succ d ih => exact unifyStep_approximates fun m u₁ u₂ _ => ih m u₁ u₂

/-- An answer stays the same at larger depths. -/
theorem unifyWithin_approximates (cfg : Config) {d d' : Nat} (h : d ≤ d') (n : Nat) (t₁ t₂ : Ty) :
    Approximates cfg n (unifyWithin d t₁ t₂) (unifyWithin d' t₁ t₂) := by
  induction h with
  | refl => exact .refl _
  | step _ ih => exact ih.trans (unifyWithin_approximates_succ cfg _ n t₁ t₂)

section Orderly

variable {cfg : Config} {st : RunState} {t₁ t₂ : Ty} (ho : Orderly cfg st.issued t₁ t₂)

include ho

theorem unify_ne_outOfFuel (st' : RunState) : unify t₁ t₂ cfg st ≠ .error .outOfFuel st' := by
  intro h
  have hr := ((unifyWithin_yields cfg (unifyDepth t₁ t₂) st.issued t₁ t₂).of_error rfl h).1
  exact hr.ne_outOfFuel ho rfl

theorem unifyWithin_eq_unify {d : Nat} (hd : unifyDepth t₁ t₂ ≤ d) :
    unifyWithin d t₁ t₂ cfg st = unify t₁ t₂ cfg st := by
  rcases unifyWithin_approximates cfg hd st.issued t₁ t₂ st rfl with ⟨st', h⟩ | h
  · exact absurd h (unify_ne_outOfFuel ho st')
  · exact h

/-- Unification obeys the equation of its recursion without any bound. -/
theorem unify_eq_unifyStep : unify t₁ t₂ cfg st = unifyStep unify t₁ t₂ cfg st := by
  -- Whatever the bound for the inner calls is, it is met or does not matter.
  have hcalls : ∀ d m u₁ u₂, Leads cfg st.issued t₁ t₂ m u₁ u₂ →
      Approximates cfg m (unifyWithin d u₁ u₂) (unify u₁ u₂) := by
    intro d m u₁ u₂ hl
    rcases Nat.le_total d (unifyDepth u₁ u₂) with hd | hd
    · exact unifyWithin_approximates cfg hd m u₁ u₂
    · intro st₁ hm
      exact .inr (unifyWithin_eq_unify (hm ▸ ho.next hl) hd).symm
  have hstep := unifyWithin_eq_unify ho (Nat.le_succ (unifyDepth t₁ t₂))
  rcases unifyStep_approximates (hcalls (unifyDepth t₁ t₂)) st rfl with ⟨st', h⟩ | h
  · exact absurd (hstep.symm.trans h) (unify_ne_outOfFuel ho st')
  · exact hstep.symm.trans h.symm

end Orderly

/-- With stems of one character, a run that can issue none of the variables of the two types ends,
whatever the types: it returns a substitution or fails before the depth `unifyDepth t₁ t₂` is
reached. Larger bounds give the same end, and `unify` is a solution of the recursion in which calls
are not counted. -/
theorem unify_terminates (cfg : Config) (hcfg : cfg.SingleStems) (st : RunState) (t₁ t₂ : Ty)
    (h₁ : t₁.Over (cfg.Stale st.issued)) (h₂ : t₂.Over (cfg.Stale st.issued)) :
    (∀ f st', unify t₁ t₂ cfg st = .error f st' → f ≠ .outOfFuel) ∧
      (∀ d, unifyDepth t₁ t₂ ≤ d → unifyWithin d t₁ t₂ cfg st = unify t₁ t₂ cfg st) ∧
      unify t₁ t₂ cfg st = unifyStep unify t₁ t₂ cfg st := by
  have ho : Orderly cfg st.issued t₁ t₂ := .inr ⟨hcfg, h₁, h₂⟩
  refine ⟨?_, fun d hd => unifyWithin_eq_unify ho hd, unify_eq_unifyStep ho⟩
  intro f st' h hf
  rw [hf] at h
  exact unify_ne_outOfFuel ho st' h

/-- A row that ends in an unconstrained variable. Its field holds the end of `crossedRight`. -/
def crossedLeft : Ty :=
  .rowExtend "x" (.record (.var ⟨"r1", .lacks .empty⟩)) (.var ⟨"a0", .free⟩)

/-- A row whose field holds the end of `crossedLeft`. -/
def crossedRight : Ty :=
  .rowExtend "y" (.record (.var ⟨"a0", .free⟩)) (.var ⟨"r1", .lacks .empty⟩)

/-- Each row would have to hold the other one. After two new variables the occurs check ends the
run. -/
theorem unify_terminates_crossed :
    Config.SingleStems {} ∧ crossedLeft.Over (Config.Stale {} 2) ∧
      crossedRight.Over (Config.Stale {} 2) ∧
      (∃ v t st', unify crossedLeft crossedRight {} { issued := 2 } =
        .error (.infer (.occurs v t)) st' ∧ st'.issued = 4) ∧
      (∀ d, unifyDepth crossedLeft crossedRight ≤ d →
        unifyWithin d crossedLeft crossedRight {} { issued := 2 } =
          unify crossedLeft crossedRight {} { issued := 2 }) ∧
      unify crossedLeft crossedRight {} { issued := 2 } =
        unifyStep unify crossedLeft crossedRight {} { issued := 2 } := by
  have hcfg : Config.SingleStems {} := ⟨rfl, rfl⟩
  have hvs : NamedFrom (Config.OwnStem {}) 0 [⟨"a0", .free⟩, ⟨"r1", .lacks .empty⟩] :=
    ⟨⟨_, 0, .inl rfl, rfl, rfl⟩, ⟨_, 1, .inr rfl, rfl, rfl⟩, trivial⟩
  have h₁ : crossedLeft.Over (Config.Stale {} 2) :=
    Config.over_stale_of_issued hcfg hvs (by decide)
  have h₂ : crossedRight.Over (Config.Stale {} 2) :=
    Config.over_stale_of_issued hcfg hvs (by decide)
  obtain ⟨-, hbound, hstep⟩ :=
    unify_terminates {} hcfg { issued := 2 } crossedLeft crossedRight h₁ h₂
  exact ⟨hcfg, h₁, h₂, ⟨_, _, _, rfl, by decide +kernel⟩, hbound, hstep⟩

end RowTyping
