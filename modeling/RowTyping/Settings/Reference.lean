/-! # References to variables

In the value of a variable, `${NAME}` stands for the value of another variable
and `${NAME:-default}` gives a text to take if there is no such variable. -/

namespace RowTyping

/-- A reference to a variable. -/
structure Reference where
  name : String
  /-- What stands for a variable that does not exist. -/
  fallback : String
  deriving DecidableEq

namespace Reference

/-- Reads a reference behind its dollar sign. Returns the number of characters it takes there. -/
def read? (text : List Char) : Option (Reference × Nat) :=
  match text with
  | '\x7b' :: l =>
    let name := l.takeWhile fun c => c != '\x7d' && c != ':'
    match l.drop name.length with
    | '\x7d' :: _ => some (⟨String.ofList name, ""⟩, name.length + 2)
    | ':' :: '-' :: l =>
      let fallback := l.takeWhile (· != '\x7d')
      match l.drop fallback.length with
      | '\x7d' :: _ =>
        some (⟨String.ofList name, String.ofList fallback⟩, name.length + fallback.length + 4)
      | _ => none
    | _ => none
  | _ => none

/-- The text that a reference stands for. A variable without a value stands for nothing. -/
def resolve (lookup : String → Option (Option String)) (r : Reference) : String :=
  match lookup r.name with
  | some (some value) => value
  | some none => ""
  | none => r.fallback

/-- Puts values in the place of references in a text, after `skip` characters of it. -/
def expandAfter (lookup : String → Option (Option String)) : (skip : Nat) → List Char → List Char
  | _, [] => []
  | skip + 1, _ :: l => expandAfter lookup skip l
  | 0, c :: l =>
    if c = '$' then
      match read? l with
      | some (r, n) => (r.resolve lookup).toList ++ expandAfter lookup n l
      | none => c :: expandAfter lookup 0 l
    else c :: expandAfter lookup 0 l

/-- Puts values in the place of references in a text. What is put in is not looked at again. -/
def expand (lookup : String → Option (Option String)) (text : String) : String :=
  String.ofList (expandAfter lookup 0 text.toList)

end Reference

end RowTyping
