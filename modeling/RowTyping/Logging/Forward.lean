import RowTyping.Logging.Level

/-! # Forwarded messages

A message from another library comes with the name and the number of its level
and with arguments for the places marked `%s` in its text. -/

namespace RowTyping.Logging

/-- A message from another library. -/
structure Record where
  levelName : String
  levelNumber : Int
  text : String
  arguments : List String

/-- Why a message cannot be forwarded. -/
inductive ForwardError where
  /-- There are more marked places than arguments. -/
  | missingArgument
  /-- There are more arguments than marked places. -/
  | unusedArgument
  /-- The text ends within a mark. -/
  | incompleteMark
  /-- The character at this place does not make a mark. -/
  | unknownMark (c : Char) (index : Nat)
  /-- The number of the level is negative. -/
  | badLevel (number : Int)
  deriving DecidableEq

/-- The wording of an error. -/
def ForwardError.message : ForwardError → String
  | missingArgument => "not enough arguments for format string"
  | unusedArgument => "not all arguments converted during string formatting"
  | incompleteMark => "incomplete format"
  | unknownMark c index =>
    let shown := if 31 ≤ c.toNat && c.toNat ≤ 126 then c else '?'
    "unsupported format character '" ++ String.singleton shown ++ "' (0x" ++
      String.ofList (Nat.toDigits 16 c.toNat) ++ ") at index " ++ toString index
  | badLevel n => "Invalid level value, it should be a positive integer, not: " ++ toString n

/-- Puts arguments in the marked places of a text, which starts at `index`; `%%` stands for a
percent sign. The first fault in the text counts. -/
def fillIn (index : Nat) : List Char → List String → Except ForwardError (List Char)
  | [], [] => .ok []
  | [], _ :: _ => .error .unusedArgument
  | ['%'], _ => .error .incompleteMark
  | '%' :: '%' :: l, args => (fillIn (index + 2) l args).map ('%' :: ·)
  | '%' :: _ :: _, [] => .error .missingArgument
  | '%' :: c :: l, a :: args =>
    if c = 's' then (fillIn (index + 2) l args).map (a.toList ++ ·)
    else .error (.unknownMark c (index + 1))
  | c :: l, args => (fillIn (index + 1) l args).map (c :: ·)

/-- The text of a message. Without arguments it is taken as it stands. -/
def Record.message (r : Record) : Except ForwardError String :=
  if r.arguments.isEmpty then .ok r.text
  else (fillIn 0 r.text.toList r.arguments).map String.ofList

/-- The level of a message in the log: its name if the log knows it, and else its number, which
must not be negative. -/
def Record.level (r : Record) : Except ForwardError String :=
  if (severity? r.levelName).isSome then .ok r.levelName
  else if r.levelNumber < 0 then .error (.badLevel r.levelNumber)
  else .ok ("Level " ++ toString r.levelNumber)

/-- The level and the text under which a message is logged. A fault in the text goes before one in
the level. -/
def Record.forward (r : Record) : Except ForwardError (String × String) := do
  let message ← r.message
  let level ← r.level
  return (level, message)

end RowTyping.Logging
