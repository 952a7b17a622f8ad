import RowTyping.Data.OrderedMap
import RowTyping.Settings.Reference
import RowTyping.Text.Blank

/-! # Files of variables

A file of variables has a line `NAME=value` for each of them, or `NAME` alone
for a variable without a value. Blank lines and lines that start with `#` say
nothing; a line that does not have this form gives a warning. A value may stand
in single or double quotes. It can then go on over several lines, and a
backslash escapes the next character. Without quotes a value ends before a
comment and loses the blanks around it. Values may refer to other variables. -/

namespace RowTyping.DotEnv

open Text

/-- What a line says: a name and, unless it stands alone, its value. -/
structure Binding where
  name : String
  value : Option String
  deriving DecidableEq

/-- A text in which every line ends with a line feed alone. -/
def unifyLineEnds : List Char → List Char
  | [] => []
  | '\x0d' :: '\x0a' :: l => '\x0a' :: unifyLineEnds l
  | '\x0d' :: l => '\x0a' :: unifyLineEnds l
  | c :: l => c :: unifyLineEnds l

/-- Whether a character is a blank within a line. -/
def isGap (c : Char) : Bool := isBlank c && c != '\x0a'

/-- The rest of the current line. -/
def line (text : List Char) : List Char := text.takeWhile (· != '\x0a')

/-- What follows the current line. -/
def nextLine (text : List Char) : List Char := (text.dropWhile (· != '\x0a')).tail

/-- Whether nothing but blanks and a comment is left of the current line. -/
def atLineEnd (text : List Char) : Bool :=
  match (line text).dropWhile isGap with
  | [] => true
  | c :: _ => c == '#'

/-- The escapes in single quotes. -/
def singleEscapes : List (Char × Char) := [('\\', '\\'), ('\'', '\'')]

/-- The escapes in double quotes. -/
def doubleEscapes : List (Char × Char) :=
  [('\\', '\\'), ('\'', '\''), ('"', '"'), ('a', '\x07'), ('b', '\x08'), ('f', '\x0c'),
    ('n', '\x0a'), ('r', '\x0d'), ('t', '\x09'), ('v', '\x0b')]

/-- The text up to the closing quote, with its escapes resolved, and what comes after the quote.
A backslash takes the next character with it, so that a quote behind one does not close the
text; a pair that is no escape stays as it is. -/
def readQuoted (quote : Char) (escapes : List (Char × Char)) :
    List Char → Option (List Char × List Char)
  | [] => none
  | ['\\'] => none
  | '\\' :: c :: l =>
    (readQuoted quote escapes l).map fun (inside, after) =>
      match escapes.lookup c with
      | some e => (e :: inside, after)
      | none => ('\\' :: c :: inside, after)
  | c :: l =>
    if c = quote then some ([], l)
    else (readQuoted quote escapes l).map fun (inside, after) => (c :: inside, after)

/-- The text before a comment, which starts with a blank and `#`. -/
def beforeComment : List Char → List Char
  | [] => []
  | c :: l =>
    if isBlank c && (l.dropWhile isBlank).head? == some '#' then [] else c :: beforeComment l

/-- Reads the value behind an equals sign. Only an unclosed quote stands against it. -/
def readValue (text : List Char) : Option (List Char × List Char) :=
  match text.dropWhile isGap with
  | '\'' :: l => readQuoted '\'' singleEscapes l
  | '"' :: l => readQuoted '"' doubleEscapes l
  | _ => some (trim (beforeComment (line text)), text.dropWhile (· != '\x0a'))

/-- Whether a character can stand in a name without quotes. -/
def isNameChar (c : Char) : Bool := !(c == '=' || c == '#' || isBlank c)

/-- Reads a name, which may stand in single quotes. -/
def readName (text : List Char) : Option (List Char × List Char) :=
  let (name, rest) := match text with
    | '\'' :: l => (l.takeWhile (· != '\''), (l.dropWhile (· != '\'')).tail?)
    | _ => (text.takeWhile isNameChar, some (text.dropWhile isNameChar))
  if name.isEmpty then none else rest.map fun rest => (name, rest)

/-- What follows the word `export`, which may stand before a name. -/
def skipExport (text : List Char) : List Char :=
  let rest := text.drop 6
  if "export".toList.isPrefixOf text && rest.head?.any isGap then rest.dropWhile isGap else text

/-- What reading finds at some place of a file. -/
inductive Statement where
  /-- Blank lines or a comment. -/
  | nothing
  /-- A variable. -/
  | binding (b : Binding)
  /-- Something that cannot be read. -/
  | malformed
  deriving DecidableEq

/-- A binding, if its line ends here, and what follows that line. -/
def finishLine (b : Binding) (rest : List Char) : Statement × List Char :=
  (if atLineEnd rest then .binding b else .malformed, nextLine rest)

/-- Reads the next statement. Returns what follows the line on which reading ended. -/
def readStatement (text : List Char) : Statement × List Char :=
  let text := text.dropWhile isBlank
  if text.isEmpty then (.nothing, [])
  else
    let text := skipExport text
    if text.head? = some '#' then (.nothing, nextLine text)
    else
      match readName text with
      | none => (.malformed, nextLine text)
      | some (name, rest) =>
        match rest.dropWhile isGap with
        | '=' :: rest =>
          match readValue rest with
          | some (value, rest) => finishLine ⟨String.ofList name, some (String.ofList value)⟩ rest
          | none => (.malformed, nextLine rest)
        | rest => finishLine ⟨String.ofList name, none⟩ rest

/-- The statements of a text after `skip` characters, each with the number of the line where
reading started; the text itself starts on line `number`. -/
def statementsAfter : (skip number : Nat) → List Char → List (Nat × Statement)
  | _, _, [] => []
  | skip + 1, number, c :: l => statementsAfter skip (if c = '\x0a' then number + 1 else number) l
  | 0, number, c :: l =>
    let (s, rest) := readStatement (c :: l)
    (number, s) ::
      statementsAfter (l.length - rest.length) (if c = '\x0a' then number + 1 else number) l

/-- The statements of a file, in order. A byte order mark at its start does not count. -/
def statements (text : String) : List (Nat × Statement) :=
  let chars := match text.toList with
    | '\ufeff' :: l => l
    | l => l
  statementsAfter 0 1 (unifyLineEnds chars)

/-- The variables of a file. Of two values for a name the later one counts. A value may refer to
variables that stand before it in the file and, after these, to the environment. -/
def parse (environment : List (String × String)) (text : String) :
    OrderedMap String (Option String) :=
  (statements text).foldl
    (fun vars s =>
      match s.2 with
      | .binding b =>
        let lookup := fun name => vars.get? name <|> (environment.lookup name).map some
        vars.insert b.name (b.value.map (Reference.expand lookup))
      | _ => vars)
    .empty

/-- A warning for each statement that cannot be read. -/
def warnings (text : String) : List String :=
  (statements text).filterMap fun s =>
    if s.2 = .malformed then some ("could not parse statement starting at line " ++ toString s.1)
    else none

end RowTyping.DotEnv
