import RowTyping.Expr.Basic
import RowTyping.Proofs.Schemes

/-!
# The type system

`HasType Γ e t`: the expression `e` has the type `t` in the environment `Γ`. A name has all
instances of its scheme, a primitive all those of its own; an instance puts a type of the right kind
in the place of each quantified variable (`Scheme.HasInstance`). Parameters of functions have one
type. The type of a `let`-bound expression is generalized over the variables that are not free in
the environment. Types that differ only in the order of differently labelled fields are the same.

The rules say nothing about how to find a type. In an environment of well-kinded schemes, every type
that they give is well kinded (`HasType.hasKind`).
-/

namespace RowTyping

/-! ## Primitives -/

namespace Prim

/-- The field type that the scheme of a primitive quantifies. -/
def fieldVar : TyVar := ⟨"a", .free⟩

/-- The row without the label `l` that the scheme of a primitive quantifies. -/
def rowVar (l : String) : TyVar := ⟨"r", .lacks (.singleton l)⟩

/-- The record with the field `l`. -/
def recordType (l : String) : Ty := .record (.rowExtend l (.var fieldVar) (.var (rowVar l)))

/-- The scheme of a primitive. -/
def scheme? : Prim → Option Scheme
  | int _ => some (.mono .int)
  | bool _ => some (.mono .bool)
  | emptyRecord => some (.mono (.record .rowEmpty))
  | select l => some ⟨[fieldVar, rowVar l], .fn (recordType l) (.var fieldVar)⟩
  | extend l => some ⟨[fieldVar, rowVar l],
      .fn (.var fieldVar) (.fn (.record (.var (rowVar l))) (recordType l))⟩
  | restrict l => some ⟨[fieldVar, rowVar l], .fn (recordType l) (.record (.var (rowVar l)))⟩
  | hole => none

theorem scheme?_hasKind {p : Prim} {σ : Scheme} (h : p.scheme? = some σ) :
    σ.body.HasKind .free := by
  have hrow : ∀ l, (Ty.var (rowVar l)).HasKind (.lacks .empty) := fun l m hm =>
    absurd hm (OrdSet.not_mem_empty m)
  have hrec : ∀ l, (recordType l).HasKind .free := fun l =>
    ⟨OrdSet.not_mem_empty l, trivial, fun m hm => by
      rcases OrdSet.mem_insert.1 hm with rfl | hm
      · exact OrdSet.mem_singleton.2 rfl
      · exact absurd hm (OrdSet.not_mem_empty m)⟩
  cases p with
  | int i => cases h; trivial
  | bool b => cases h; trivial
  | emptyRecord => cases h; trivial
  | select l => cases h; exact ⟨hrec l, trivial⟩
  | extend l => cases h; exact ⟨trivial, hrow l, hrec l⟩
  | restrict l => cases h; exact ⟨hrec l, hrow l⟩
  | hole => cases h

/-- The schemes of primitives are closed. -/
theorem scheme?_closed {p : Prim} {σ : Scheme} (h : p.scheme? = some σ) (v : TyVar) :
    v ∉ σ.freeVars := by
  have hop : ∀ l, v ∈ (recordType l).freeVars ↔ v = fieldVar ∨ v = rowVar l := fun l => by
    simp [recordType]
  rw [Scheme.mem_freeVars]
  cases p with
  | int i => cases h; simp [Scheme.mono]
  | bool b => cases h; simp [Scheme.mono]
  | emptyRecord => cases h; simp [Scheme.mono]
  | select l => cases h; grind [Ty.mem_freeVars_fn, Ty.mem_freeVars_var]
  | extend l =>
    cases h; grind [Ty.mem_freeVars_fn, Ty.mem_freeVars_record, Ty.mem_freeVars_var]
  | restrict l =>
    cases h; grind [Ty.mem_freeVars_fn, Ty.mem_freeVars_record, Ty.mem_freeVars_var]
  | hole => cases h

end Prim

/-! ## Typing rules -/

/-- The type is an instance of the scheme: each quantified variable gives way to a type of its
kind. -/
def Scheme.HasInstance (σ : Scheme) (t : Ty) : Prop :=
  ∃ ρ : Subst, ρ.Respects ∧ (∀ v ∈ ρ.keys, v ∈ σ.vars) ∧ t = σ.body.subst ρ

/-- The expression has the type in the environment. -/
inductive HasType : Env → Expr → Ty → Prop
  | var {Γ : Env} {x : String} {σ : Scheme} {t : Ty} : Γ.get? x = some σ → σ.HasInstance t →
      HasType Γ (.var x) t
  | prim {Γ : Env} {p : Prim} {σ : Scheme} {t : Ty} : p.scheme? = some σ → σ.HasInstance t →
      HasType Γ (.prim p) t
  | app {Γ : Env} {f a : Expr} {t r : Ty} : HasType Γ f (.fn t r) → HasType Γ a t →
      HasType Γ (.app f a) r
  | abs {Γ : Env} {x : String} {e : Expr} {t r : Ty} : t.HasKind .free →
      HasType (Γ.extend x (.mono t)) e r → HasType Γ (.abs x e) (.fn t r)
  | letIn {Γ : Env} {x : String} {e₁ e₂ : Expr} {us : List TyVar} {t₁ t₂ : Ty} :
      HasType Γ e₁ t₁ → (∀ u, u ∈ us ↔ u ∈ t₁.freeVars ∧ u ∉ Γ.freeVars) →
      HasType (Γ.extend x ⟨us, t₁⟩) e₂ t₂ → HasType Γ (.letIn x e₁ e₂) t₂
  | reorder {Γ : Env} {e : Expr} {t t' : Ty} : HasType Γ e t → RowEquiv t t' → HasType Γ e t'

theorem Scheme.HasInstance.hasKind {σ : Scheme} {t : Ty} (h : σ.HasInstance t)
    (hσ : σ.body.HasKind .free) : t.HasKind .free := by
  obtain ⟨ρ, hρ, -, rfl⟩ := h
  exact hσ.subst hρ

theorem HasType.hasKind {Γ : Env} {e : Expr} {t : Ty} (h : HasType Γ e t) (hΓ : Γ.Kinded) :
    t.HasKind .free := by
  induction h with
  | var hx hi => exact hi.hasKind (hΓ _ _ hx)
  | prim hp hi => exact hi.hasKind (Prim.scheme?_hasKind hp)
  | app _ _ ihf _ => exact (ihf hΓ).2
  | abs ht _ ih => exact ⟨ht, ih (hΓ.extend _ ht)⟩
  | letIn _ _ _ ih₁ ih₂ => exact ih₂ (hΓ.extend _ (ih₁ hΓ))
  | reorder _ he ih => exact he.hasKind (ih hΓ)

end RowTyping
