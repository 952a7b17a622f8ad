import RowTyping.Infer
import RowTyping.Proofs.Typing
import RowTyping.Proofs.Unify.Relation

/-!
# The runs of type inference

`Inferred gen cfg n Γ e vs s t` holds when inference, started after `n` variables were issued,
succeeds with the substitution `s` and the type `t` and issues the variables `vs` on the way;
`Rejected gen cfg n Γ e vs f` holds when it ends with the fault `f`. The schemes of `let` are made
by `gen`, which is `Env.generalize` for `infer`. `inferWith_yields` says that these are all the
runs there are.

A name and a primitive are treated alike: both have a scheme, and inference returns an instance of
it with fresh variables in the place of the quantified ones.
-/

namespace RowTyping

open InferM

/-! ## Fresh copies -/

namespace Config

variable (cfg : Config) (stem : TyVar → String)

/-- The variables that are issued as copies of others, when `n` have been issued. -/
def copies : Nat → List TyVar → List TyVar
  | _, [] => []
  | n, v :: us => cfg.issue (stem v) v.constraint n :: copies (n + 1) us

/-- Adds to a substitution that each variable gives way to its copy. -/
def copying : Nat → List TyVar → Subst → Subst
  | _, [], s => s
  | n, v :: us, s => copying (n + 1) us (s.insert v (.var (cfg.issue (stem v) v.constraint n)))

/-- An instance of a scheme: its quantified variables give way to copies. -/
def copy (n : Nat) (σ : Scheme) : Ty := σ.body.subst (cfg.copying stem n σ.vars .empty)

/-- The stem of a fresh variable with the constraint of another one. -/
def ownStem (v : TyVar) : String := if v.constraint = .free then cfg.typeStem else cfg.rowStem

end Config

theorem freshCopies_yields {cfg : Config} {n : Nat} (us : List TyVar) (s : Subst) :
    Yields cfg (freshCopies us s) n
      (fun vs s' => vs = cfg.copies TyVar.stem n us ∧ s' = cfg.copying TyVar.stem n us s)
      fun _ _ => False := by
  induction us generalizing n s with
  | nil => exact .pure ⟨rfl, rfl⟩
  | cons v us ih =>
    refine .freshWith_bind ((ih _).mono ?_ fun _ _ h => h)
    rintro vs s' ⟨rfl, rfl⟩
    exact ⟨rfl, rfl⟩

theorem Scheme.instantiate_yields {cfg : Config} {n : Nat} (σ : Scheme) :
    Yields cfg σ.instantiate n
      (fun vs t => vs = cfg.copies TyVar.stem n σ.vars ∧ t = cfg.copy TyVar.stem n σ)
      fun _ _ => False := by
  refine (freshCopies_yields σ.vars .empty).bind ?_ fun _ _ h => h
  rintro vs s ⟨rfl, rfl⟩
  exact .pure ⟨List.append_nil _, rfl⟩

/-! ## Primitives -/

namespace Prim

theorem get?_copying_fieldVar (cfg : Config) (n : Nat) (l : String) :
    (cfg.copying cfg.ownStem n [fieldVar, rowVar l] .empty).get? fieldVar =
      some (.var (cfg.typeVar n)) := by
  have hne : fieldVar ≠ rowVar l := fun h => by cases congrArg TyVar.constraint h
  unfold Config.copying Config.copying Config.copying
  rw [OrderedMap.get?_insert, if_neg hne, OrderedMap.get?_insert, if_pos rfl]
  rfl

theorem get?_copying_rowVar (cfg : Config) (n : Nat) (l : String) :
    (cfg.copying cfg.ownStem n [fieldVar, rowVar l] .empty).get? (rowVar l) =
      some (.var (cfg.rowVar (n + 1) (.singleton l))) := by
  unfold Config.copying Config.copying Config.copying
  rw [OrderedMap.get?_insert, if_pos rfl]
  rfl

theorem infer_yields {cfg : Config} {n : Nat} (p : Prim) :
    Yields cfg p.infer n
      (fun vs t => ∃ σ, p.scheme? = some σ ∧ vs = cfg.copies cfg.ownStem n σ.vars ∧
        t = cfg.copy cfg.ownStem n σ)
      fun vs f => vs = [] ∧ p.scheme? = none ∧ f = .unknownPrim := by
  cases p with
  | int i => exact .pure ⟨_, rfl, rfl, rfl⟩
  | bool b => exact .pure ⟨_, rfl, rfl, rfl⟩
  | emptyRecord => exact .pure ⟨_, rfl, rfl, rfl⟩
  | select l =>
    refine .freshType_bind (.freshRow_bind (.pure ⟨_, rfl, rfl, ?_⟩))
    simp only [Config.copy, recordType, Ty.subst, get?_copying_fieldVar, get?_copying_rowVar,
      Option.getD_some]
  | extend l =>
    refine .freshType_bind (.freshRow_bind (.pure ⟨_, rfl, rfl, ?_⟩))
    simp only [Config.copy, recordType, Ty.subst, get?_copying_fieldVar, get?_copying_rowVar,
      Option.getD_some]
  | restrict l =>
    refine .freshType_bind (.freshRow_bind (.pure ⟨_, rfl, rfl, ?_⟩))
    simp only [Config.copy, recordType, Ty.subst, get?_copying_fieldVar, get?_copying_rowVar,
      Option.getD_some]
  | hole => exact .throw ⟨rfl, rfl, rfl⟩

end Prim

/-! ## Inference -/

/-- Inference succeeds. -/
inductive Inferred (gen : Env → Ty → Scheme) (cfg : Config) :
    Nat → Env → Expr → List TyVar → Subst → Ty → Prop
  | var {n : Nat} {Γ : Env} {x : String} {σ : Scheme} : Γ.get? x = some σ →
      Inferred gen cfg n Γ (.var x) (cfg.copies TyVar.stem n σ.vars) .empty
        (cfg.copy TyVar.stem n σ)
  | prim {n : Nat} {Γ : Env} {p : Prim} {σ : Scheme} : p.scheme? = some σ →
      Inferred gen cfg n Γ (.prim p) (cfg.copies cfg.ownStem n σ.vars) .empty
        (cfg.copy cfg.ownStem n σ)
  | app {n : Nat} {Γ : Env} {f a : Expr} {vs₁ vs₂ vs₃ : List TyVar} {s₁ s₂ s₃ : Subst}
      {t₁ t₂ : Ty} : Inferred gen cfg n Γ f vs₁ s₁ t₁ →
      Inferred gen cfg (n + vs₁.length) (Γ.subst s₁) a vs₂ s₂ t₂ →
      Unified cfg (n + vs₁.length + vs₂.length + 1) (t₁.subst s₂)
        (.fn t₂ (.var (cfg.typeVar (n + vs₁.length + vs₂.length)))) vs₃ s₃ →
      Inferred gen cfg n Γ (.app f a)
        (vs₁ ++ (vs₂ ++ cfg.typeVar (n + vs₁.length + vs₂.length) :: vs₃))
        (s₃.compose (s₂.compose s₁))
        ((Ty.var (cfg.typeVar (n + vs₁.length + vs₂.length))).subst s₃)
  | abs {n : Nat} {Γ : Env} {x : String} {e : Expr} {vs : List TyVar} {s : Subst} {t : Ty} :
      Inferred gen cfg (n + 1) (Γ.extend x (.mono (.var (cfg.typeVar n)))) e vs s t →
      Inferred gen cfg n Γ (.abs x e) (cfg.typeVar n :: vs) s
        (.fn ((Ty.var (cfg.typeVar n)).subst s) t)
  | letIn {n : Nat} {Γ : Env} {x : String} {e₁ e₂ : Expr} {vs₁ vs₂ : List TyVar} {s₁ s₂ : Subst}
      {t₁ t₂ : Ty} : Inferred gen cfg n Γ e₁ vs₁ s₁ t₁ →
      Inferred gen cfg (n + vs₁.length) ((Γ.extend x (gen (Γ.subst s₁) t₁)).subst s₁) e₂ vs₂ s₂
        t₂ →
      Inferred gen cfg n Γ (.letIn x e₁ e₂) (vs₁ ++ vs₂) (s₂.compose s₁) t₂

/-- Inference ends with a fault. -/
inductive Rejected (gen : Env → Ty → Scheme) (cfg : Config) :
    Nat → Env → Expr → List TyVar → Fault → Prop
  | unbound {n : Nat} {Γ : Env} {x : String} : Γ.get? x = none →
      Rejected gen cfg n Γ (.var x) [] (.infer (.unboundVariable x))
  | prim {n : Nat} {Γ : Env} {p : Prim} : p.scheme? = none →
      Rejected gen cfg n Γ (.prim p) [] .unknownPrim
  | hole {n : Nat} {Γ : Env} : Rejected gen cfg n Γ .hole [] .unknownExpr
  | appFunc {n : Nat} {Γ : Env} {f a : Expr} {vs : List TyVar} {e : Fault} :
      Rejected gen cfg n Γ f vs e → Rejected gen cfg n Γ (.app f a) vs e
  | appArg {n : Nat} {Γ : Env} {f a : Expr} {vs₁ vs₂ : List TyVar} {s₁ : Subst} {t₁ : Ty}
      {e : Fault} : Inferred gen cfg n Γ f vs₁ s₁ t₁ →
      Rejected gen cfg (n + vs₁.length) (Γ.subst s₁) a vs₂ e →
      Rejected gen cfg n Γ (.app f a) (vs₁ ++ vs₂) e
  | appUnify {n : Nat} {Γ : Env} {f a : Expr} {vs₁ vs₂ vs₃ : List TyVar} {s₁ s₂ : Subst}
      {t₁ t₂ : Ty} {e : Fault} : Inferred gen cfg n Γ f vs₁ s₁ t₁ →
      Inferred gen cfg (n + vs₁.length) (Γ.subst s₁) a vs₂ s₂ t₂ →
      Refused cfg (unifyDepth (t₁.subst s₂)
          (.fn t₂ (.var (cfg.typeVar (n + vs₁.length + vs₂.length)))))
        (n + vs₁.length + vs₂.length + 1) (t₁.subst s₂)
        (.fn t₂ (.var (cfg.typeVar (n + vs₁.length + vs₂.length)))) vs₃ e →
      Rejected gen cfg n Γ (.app f a)
        (vs₁ ++ (vs₂ ++ cfg.typeVar (n + vs₁.length + vs₂.length) :: vs₃)) e
  | abs {n : Nat} {Γ : Env} {x : String} {e : Expr} {vs : List TyVar} {f : Fault} :
      Rejected gen cfg (n + 1) (Γ.extend x (.mono (.var (cfg.typeVar n)))) e vs f →
      Rejected gen cfg n Γ (.abs x e) (cfg.typeVar n :: vs) f
  | letBound {n : Nat} {Γ : Env} {x : String} {e₁ e₂ : Expr} {vs : List TyVar} {f : Fault} :
      Rejected gen cfg n Γ e₁ vs f → Rejected gen cfg n Γ (.letIn x e₁ e₂) vs f
  | letBody {n : Nat} {Γ : Env} {x : String} {e₁ e₂ : Expr} {vs₁ vs₂ : List TyVar} {s₁ : Subst}
      {t₁ : Ty} {f : Fault} : Inferred gen cfg n Γ e₁ vs₁ s₁ t₁ →
      Rejected gen cfg (n + vs₁.length) ((Γ.extend x (gen (Γ.subst s₁) t₁)).subst s₁) e₂ vs₂ f →
      Rejected gen cfg n Γ (.letIn x e₁ e₂) (vs₁ ++ vs₂) f

theorem unify_yields (cfg : Config) (n : Nat) (t₁ t₂ : Ty) :
    Yields cfg (unify t₁ t₂) n (Unified cfg n t₁ t₂) (Refused cfg (unifyDepth t₁ t₂) n t₁ t₂) :=
  unifyWithin_yields cfg _ n t₁ t₂

/-- The runs of inference are those of the two relations. -/
theorem inferWith_yields (gen : Env → Ty → Scheme) (cfg : Config) (n : Nat) (Γ : Env) (e : Expr) :
    Yields cfg (inferWith gen Γ e) n (fun vs r => Inferred gen cfg n Γ e vs r.1 r.2)
      (Rejected gen cfg n Γ e) := by
  induction e generalizing n Γ with
  | var x =>
    refine .trace_bind rfl ?_
    cases hx : Γ.get? x with
    | none =>
      simp only
      exact .fail (.unbound hx)
    | some σ =>
      simp only
      refine (Scheme.instantiate_yields σ).bind ?_ fun _ _ h => h.elim
      rintro _ _ ⟨rfl, rfl⟩
      exact .pure (by rw [List.append_nil]; exact .var hx)
  | prim p =>
    refine .trace_bind rfl (p.infer_yields.bind ?_ ?_)
    · rintro _ _ ⟨σ, hp, rfl, rfl⟩
      exact .pure (by rw [List.append_nil]; exact .prim hp)
    · rintro _ _ ⟨rfl, hp, rfl⟩
      exact .prim hp
  | app f a ihf iha =>
    refine .trace_bind rfl ((ihf n Γ).bind ?_ fun _ _ h => .appFunc h)
    rintro vs₁ ⟨s₁, t₁⟩ h₁
    refine (iha _ _).bind ?_ fun _ _ h => .appArg h₁ h
    rintro vs₂ ⟨s₂, t₂⟩ h₂
    refine .freshType_bind ((unify_yields cfg _ _ _).bind ?_ fun _ _ h => .appUnify h₁ h₂ h)
    intro vs₃ s₃ h₃
    exact .pure (by rw [List.append_nil]; exact .app h₁ h₂ h₃)
  | abs x e ih =>
    refine .trace_bind rfl (.freshType_bind ((ih _ _).bind ?_ fun _ _ h => .abs h))
    rintro vs ⟨s, t⟩ h
    exact .pure (by rw [List.append_nil]; exact .abs h)
  | letIn x e₁ e₂ ih₁ ih₂ =>
    refine .trace_bind rfl ((ih₁ n Γ).bind ?_ fun _ _ h => .letBound h)
    rintro vs₁ ⟨s₁, t₁⟩ h₁
    refine (ih₂ _ _).bind ?_ fun _ _ h => .letBody h₁ h
    rintro vs₂ ⟨s₂, t₂⟩ h₂
    exact .pure (by rw [List.append_nil]; exact .letIn h₁ h₂)
  | hole => exact .trace_bind rfl (.throw .hole)

theorem typeOfWith_yields (gen : Env → Ty → Scheme) (cfg : Config) (n : Nat) (Γ : Env) (e : Expr) :
    Yields cfg (typeOfWith gen Γ e) n
      (fun vs t => ∃ s t₀, Inferred gen cfg n Γ e vs s t₀ ∧ t = t₀.subst s)
      (Rejected gen cfg n Γ e) := by
  refine (inferWith_yields gen cfg n Γ e).bind ?_ fun _ _ h => h
  rintro vs ⟨s, t⟩ h
  exact .pure (by rw [List.append_nil]; exact ⟨s, t, h, rfl⟩)

theorem infer_yields (cfg : Config) (n : Nat) (Γ : Env) (e : Expr) :
    Yields cfg (infer Γ e) n (fun vs r => Inferred Env.generalize cfg n Γ e vs r.1 r.2)
      (Rejected Env.generalize cfg n Γ e) :=
  inferWith_yields Env.generalize cfg n Γ e

theorem typeOf_yields (cfg : Config) (n : Nat) (Γ : Env) (e : Expr) :
    Yields cfg (typeOf Γ e) n
      (fun vs t => ∃ s t₀, Inferred Env.generalize cfg n Γ e vs s t₀ ∧ t = t₀.subst s)
      (Rejected Env.generalize cfg n Γ e) :=
  typeOfWith_yields Env.generalize cfg n Γ e

end RowTyping
