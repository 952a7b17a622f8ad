import RowTyping.Expr.Basic

/-! # The text of an expression

Application associates to the left, and `\x -> e` and `let` reach as far to the
right as they can; parentheses stand where these rules would read the text in
another way. -/

namespace RowTyping

/-- The text of a primitive. -/
def Prim.render : Prim → String
  | int n => toString n
  | bool b => if b then "True" else "False"
  | select l => "(_." ++ l ++ ")"
  | extend l => "\x7b" ++ l ++ "=_|_\x7d"
  | restrict l => "(_-" ++ l ++ ")"
  | emptyRecord => "\x7b\x7d"
  | hole => "None"

namespace Expr

/-- Whether an expression reaches as far to the right as it can. -/
def isOpen : Expr → Bool
  | abs .. | letIn .. => true
  | _ => false

/-- Whether an expression is an application. -/
def isApp : Expr → Bool
  | app .. => true
  | _ => false

/-- Puts a text in parentheses if asked to. -/
def parenthesize (b : Bool) (text : String) : String := if b then "(" ++ text ++ ")" else text

/-- The text of an expression. -/
def render : Expr → String
  | var x => x
  | prim p => p.render
  | app f a => parenthesize f.isOpen f.render ++ " " ++ parenthesize (a.isApp || a.isOpen) a.render
  | abs x e => "\\" ++ x ++ " -> " ++ e.render
  | letIn x e₁ e₂ => "let " ++ x ++ " = " ++ e₁.render ++ " in " ++ e₂.render
  | hole => "None"

/-- The name of an expression's form. -/
def formName : Expr → String
  | var _ => "Var"
  | prim _ => "Prim"
  | app .. => "App"
  | abs .. => "Abs"
  | letIn .. => "Let"
  | hole => "NoneType"

end Expr

end RowTyping
