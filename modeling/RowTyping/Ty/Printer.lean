import RowTyping.Ty.Row

/-! # The text of a type

A function type is written `a -> b`, with its argument in parentheses when that
is a function type. A record is written with braces, a row on its own with
angle brackets, and the end of an open row follows a bar. Constraints are not
written. -/

namespace RowTyping

/-- The excluded labels in order, divided by backslashes; nothing when there are none. -/
def Constraint.render (c : Constraint) : String := "\\".intercalate c.labels.toList

namespace Ty

/-- Whether a type is a function type. -/
def isFn : Ty → Bool
  | fn .. => true
  | _ => false

mutual

/-- The text of a type. -/
def render : Ty → String
  | var v => v.name
  | int => "Int"
  | bool => "Bool"
  | fn a r => (if a.isFn then "(" ++ a.render ++ ")" else a.render) ++ " -> " ++ r.render
  | record r => "\x7b" ++ r.renderRow ++ "\x7d"
  | rowEmpty => "<>"
  | rowExtend l f t => "<" ++ l ++ " = " ++ f.render ++ t.renderTail ++ ">"

/-- The text of a row between its brackets. -/
def renderRow : Ty → String
  | rowExtend l f t => l ++ " = " ++ f.render ++ t.renderTail
  | var v => "| " ++ v.name
  | _ => ""

/-- The text of what follows a field of a row. -/
def renderTail : Ty → String
  | rowExtend l f t => ", " ++ l ++ " = " ++ f.render ++ t.renderTail
  | var v => " | " ++ v.name
  | _ => ""

end

end Ty

end RowTyping
