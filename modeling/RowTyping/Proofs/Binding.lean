import RowTyping.Data.OrderedMap
import RowTyping.Expr.Basic

/-!
# Bound names

Parameters and `let` names are bound, all other names of an expression are free (`freeNames`). Two
expressions are alike (`AlphaEquiv`) when they differ in bound names only: `Alpha l` compares them
under binders, where `l` pairs the names bound on the one side with those bound on the other,
innermost first.

`e.inline x d` puts `d` in the place of the free name `x` of `e`. Binders of `e` that are in the way
are renamed first (`makeWay`), so no free name of `d` is captured.
-/

namespace RowTyping.Expr

/-- The names that are used but not bound. -/
def freeNames : Expr → List String
  | var x => [x]
  | prim _ => []
  | app f a => f.freeNames ++ a.freeNames
  | abs x e => e.freeNames.filter (· ≠ x)
  | letIn x e₁ e₂ => e₁.freeNames ++ e₂.freeNames.filter (· ≠ x)
  | hole => []

/-- The names of all binders. -/
def boundNames : Expr → List String
  | var _ => []
  | prim _ => []
  | app f a => f.boundNames ++ a.boundNames
  | abs x e => x :: e.boundNames
  | letIn x e₁ e₂ => x :: (e₁.boundNames ++ e₂.boundNames)
  | hole => []

/-! ## Renaming of bound names -/

/-- The two names are bound by the same pair of binders, or by none and equal. -/
def Paired : List (String × String) → String → String → Prop
  | [], x, y => x = y
  | (a, b) :: l, x, y => (x = a ∧ y = b) ∨ (x ≠ a ∧ y ≠ b ∧ Paired l x y)

/-- Under pairs of binders, two expressions differ in bound names only. -/
inductive Alpha : List (String × String) → Expr → Expr → Prop
  | var {l : List (String × String)} {x y : String} : Paired l x y → Alpha l (var x) (var y)
  | prim {l : List (String × String)} {p : Prim} : Alpha l (prim p) (prim p)
  | app {l : List (String × String)} {f f' a a' : Expr} : Alpha l f f' → Alpha l a a' →
      Alpha l (app f a) (app f' a')
  | abs {l : List (String × String)} {x y : String} {e e' : Expr} : Alpha ((x, y) :: l) e e' →
      Alpha l (abs x e) (abs y e')
  | letIn {l : List (String × String)} {x y : String} {e₁ e₁' e₂ e₂' : Expr} : Alpha l e₁ e₁' →
      Alpha ((x, y) :: l) e₂ e₂' → Alpha l (letIn x e₁ e₂) (letIn y e₁' e₂')
  | hole {l : List (String × String)} : Alpha l hole hole

/-- The two expressions differ in bound names only. -/
def AlphaEquiv (e e' : Expr) : Prop := Alpha [] e e'

/-- Every free name has a partner on the other side. -/
theorem Alpha.exists_paired {l : List (String × String)} {e e' : Expr} (h : Alpha l e e') :
    (∀ x ∈ e.freeNames, ∃ y ∈ e'.freeNames, Paired l x y) ∧
      ∀ y ∈ e'.freeNames, ∃ x ∈ e.freeNames, Paired l x y := by
  induction h with
  | var hxy => simp [freeNames, hxy]
  | prim => simp [freeNames]
  | app _ _ ihf iha => grind [freeNames]
  | abs _ ih => grind [freeNames, Paired]
  | letIn _ _ ih₁ ih₂ => grind [freeNames, Paired]
  | hole => simp [freeNames]

theorem alpha_refl {l : List (String × String)} {e : Expr}
    (h : ∀ x ∈ e.freeNames, Paired l x x) : Alpha l e e := by
  induction e generalizing l with
  | var x => exact .var (h x (by simp [freeNames]))
  | prim p => exact .prim
  | app f a ihf iha =>
    exact .app (ihf fun x hx => h x (List.mem_append_left _ hx))
      (iha fun x hx => h x (List.mem_append_right _ hx))
  | abs x e ih => exact .abs (ih (by grind [freeNames, Paired]))
  | letIn x e₁ e₂ ih₁ ih₂ =>
    exact .letIn (ih₁ fun y hy => h y (List.mem_append_left _ hy))
      (ih₂ (by grind [freeNames, Paired]))
  | hole => exact .hole

theorem AlphaEquiv.refl (e : Expr) : AlphaEquiv e e := alpha_refl fun _ _ => rfl

/-! ## Binders apart from given names -/

/-- The name itself, or a longer one if it is among those to avoid. -/
def apart (avoid : List String) (x : String) : String :=
  if x ∈ avoid then x ++ String.ofList (.replicate ((avoid.flatMap String.toList).length + 1) '_')
  else x

theorem apart_not_mem (avoid : List String) (x : String) : apart avoid x ∉ avoid := by
  have hle : ∀ y ∈ avoid, y.length ≤ (avoid.flatMap String.toList).length := by
    intro y hy
    induction avoid with
    | nil => cases hy
    | cons z avoid ih => grind [String.length_toList]
  unfold apart
  split
  · intro hm
    have := hle _ hm
    simp only [String.length_append, String.length_ofList, List.length_replicate] at this
    omega
  · assumption

/-- The name that a free name gets from pairs of binders. -/
def image (l : List (String × String)) (x : String) : String := (l.lookup x).getD x

theorem image_cons (a b : String) (l : List (String × String)) (x : String) :
    image ((a, b) :: l) x = if x = a then b else image l x := by
  rw [image, OrderedMap.lookup_cons]
  split <;> rfl

/-- Renames the binders apart from `avoid` and from one another, where `l` says how the binders
outside were renamed. -/
def freshen : List String → List (String × String) → Expr → Expr
  | _, l, var x => var (image l x)
  | _, _, prim p => prim p
  | avoid, l, app f a => app (f.freshen avoid l) (a.freshen avoid l)
  | avoid, l, abs x e =>
    abs (apart avoid x) (e.freshen (apart avoid x :: avoid) ((x, apart avoid x) :: l))
  | avoid, l, letIn x e₁ e₂ =>
    letIn (apart avoid x) (e₁.freshen avoid l)
      (e₂.freshen (apart avoid x :: avoid) ((x, apart avoid x) :: l))
  | _, _, hole => hole

theorem alpha_freshen {avoid : List String} {l : List (String × String)} {e : Expr}
    (h : ∀ x ∈ e.freeNames, Paired l x (image l x) ∧ image l x ∈ avoid) :
    Alpha l e (e.freshen avoid l) := by
  -- A binder that is renamed apart pairs with its new name, and no other name changes its partner.
  have hbind : ∀ {avoid l x z}, (z ≠ x → Paired l z (image l z) ∧ image l z ∈ avoid) →
      Paired ((x, apart avoid x) :: l) z (image ((x, apart avoid x) :: l) z) ∧
        image ((x, apart avoid x) :: l) z ∈ apart avoid x :: avoid := by
    intro avoid l x z hz
    rw [image_cons]
    by_cases hzx : z = x
    · rw [if_pos hzx]
      exact ⟨.inl ⟨hzx, rfl⟩, List.mem_cons_self⟩
    · obtain ⟨hp, hm⟩ := hz hzx
      rw [if_neg hzx]
      refine ⟨.inr ⟨hzx, fun he => apart_not_mem avoid x (he ▸ hm), hp⟩, List.mem_cons_of_mem _ hm⟩
  induction e generalizing avoid l with
  | var x => exact .var (h x (by simp [freeNames])).1
  | prim p => exact .prim
  | app f a ihf iha =>
    exact .app (ihf fun x hx => h x (List.mem_append_left _ hx))
      (iha fun x hx => h x (List.mem_append_right _ hx))
  | abs x e ih =>
    exact .abs (ih fun z hz => hbind fun hzx => h z (by simp [freeNames, hz, hzx]))
  | letIn x e₁ e₂ ih₁ ih₂ =>
    exact .letIn (ih₁ fun z hz => h z (List.mem_append_left _ hz))
      (ih₂ fun z hz => hbind fun hzx => h z (by simp [freeNames, hz, hzx]))
  | hole => exact .hole

theorem not_mem_of_mem_boundNames_freshen {avoid : List String} {l : List (String × String)}
    {e : Expr} {y : String} (h : y ∈ (e.freshen avoid l).boundNames) : y ∉ avoid := by
  induction e generalizing avoid l with
  | var x => cases h
  | prim p => cases h
  | app f a ihf iha => exact (List.mem_append.1 h).elim ihf iha
  | abs x e ih =>
    rcases List.mem_cons.1 h with rfl | h
    · exact apart_not_mem avoid x
    · exact fun hy => ih h (List.mem_cons_of_mem _ hy)
  | letIn x e₁ e₂ ih₁ ih₂ =>
    rcases List.mem_cons.1 h with rfl | h
    · exact apart_not_mem avoid x
    · rcases List.mem_append.1 h with h | h
      · exact ih₁ h
      · exact fun hy => ih₂ h (List.mem_cons_of_mem _ hy)
  | hole => cases h

/-! ## Inlining -/

/-- Puts expressions in the place of names, whatever is bound around them. -/
def replace (θ : String → Option Expr) : Expr → Expr
  | var x => (θ x).getD (var x)
  | prim p => prim p
  | app f a => app (f.replace θ) (a.replace θ)
  | abs x e => abs x (e.replace θ)
  | letIn x e₁ e₂ => letIn x (e₁.replace θ) (e₂.replace θ)
  | hole => hole

theorem replace_none (e : Expr) : e.replace (fun _ => none) = e := by
  induction e <;> simp_all [replace]

/-- Puts `d` in the place of the name `x`, and leaves all other names. -/
def single (x : String) (d : Expr) (y : String) : Option Expr := if y = x then some d else none

theorem single_eq_none {x y : String} {d : Expr} : single x d y = none ↔ y ≠ x := by
  simp [single]

theorem single_eq_some {x y : String} {d b : Expr} : single x d y = some b ↔ y = x ∧ b = d := by
  simp [single, eq_comm]

/-- Renames the binders apart from `x` and from all free names, of `d` too. -/
def makeWay (e : Expr) (x : String) (d : Expr) : Expr :=
  e.freshen (x :: (d.freeNames ++ e.freeNames)) []

theorem alphaEquiv_makeWay (e : Expr) (x : String) (d : Expr) : e.AlphaEquiv (e.makeWay x d) :=
  alpha_freshen fun y hy => ⟨rfl, by simp [image, hy]⟩

theorem boundNames_makeWay {e d : Expr} {x y : String} (h : y ∈ (e.makeWay x d).boundNames) :
    y ≠ x ∧ y ∉ d.freeNames := by
  have hy := not_mem_of_mem_boundNames_freshen h
  simp only [List.mem_cons, List.mem_append, not_or] at hy
  exact ⟨hy.1, hy.2.1⟩

/-- Puts `d` in the place of the free name `x`, without capture. -/
def inline (e : Expr) (x : String) (d : Expr) : Expr := (e.makeWay x d).replace (single x d)

end RowTyping.Expr
