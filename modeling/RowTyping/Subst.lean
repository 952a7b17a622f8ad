import RowTyping.Data.OrderedMap
import RowTyping.Ty.Printer

/-! # Substitutions

A substitution maps finitely many type variables to types and remembers the
order in which its variables came. Applying it replaces all its variables at
once; `newer.compose older` does in one step what applying `older` and then
`newer` does in two. -/

namespace RowTyping

/-- A finite map from type variables to types. -/
abbrev Subst := OrderedMap TyVar Ty

namespace Ty

/-- Replaces the variables of a type. A variable without an entry stays. -/
def subst (s : Subst) : Ty → Ty
  | var v => (s.get? v).getD (var v)
  | int => int
  | bool => bool
  | fn a r => fn (a.subst s) (r.subst s)
  | record r => record (r.subst s)
  | rowEmpty => rowEmpty
  | rowExtend l f t => rowExtend l (f.subst s) (t.subst s)

end Ty

namespace Subst

/-- First `older`, then `newer`. The variables of `older` come first, and `newer` decides where
both have an entry. -/
def compose (newer older : Subst) : Subst :=
  (older.map (Ty.subst newer)).insertAll newer.entries

/-- The entries in order, each as `name -> type`. -/
def render (s : Subst) : String :=
  "\x7b" ++ ", ".intercalate (s.entries.map fun e => e.1.name ++ " -> " ++ e.2.render) ++ "\x7d"

end Subst

end RowTyping
