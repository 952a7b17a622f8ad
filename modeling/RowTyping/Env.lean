import RowTyping.Scheme

/-! # Type environments

An environment gives names their schemes. A new binding hides an older one of
the same name, and is the newest of all. -/

namespace RowTyping

/-- The schemes of the names in scope, oldest binding first. -/
abbrev Env := OrderedMap String Scheme

namespace Env

/-- Binds a name, in place of any binding it had. -/
def extend (env : Env) (x : String) (σ : Scheme) : Env := env.insertLast x σ

/-- The variables that are free in some scheme of the environment. -/
def freeVars (env : Env) : TyVars := env.values.foldr (fun σ vs => σ.freeVars ∪ vs) .empty

/-- Replaces type variables in every scheme. -/
def subst (s : Subst) (env : Env) : Env := env.map (Scheme.subst s)

/-- Quantifies the variables of a type that the environment does not mention, in order of
their names. Which of two variables with one name is listed first is left open by that; here it
is the one that `Ord TyVar` puts first. -/
def generalize (env : Env) (t : Ty) : Scheme := ⟨(t.freeVars \ env.freeVars).toList, t⟩

end Env

end RowTyping
