import RowTyping.Run
import RowTyping.Settings.DotEnv
import RowTyping.Text.Case

/-! # Settings

A setting is taken from the first place that has it: an explicit override, the
environment, a file of variables, and at last its default. Only the value that
counts is checked, and all settings with a bad value are reported together. -/

namespace RowTyping

/-- How the program runs. -/
structure Settings where
  /-- Which log messages are shown. -/
  logFilter : String
  /-- Whether inference traces its steps. -/
  trace : Bool
  /-- The start of the names of fresh type variables, one character. -/
  typeStem : String
  /-- The start of the names of fresh row variables, one character. -/
  rowStem : String
  deriving DecidableEq

namespace Settings

/-- The settings as they are before anything is set. -/
def default : Settings := ⟨"info", false, "a", "r"⟩

/-- The run configuration that the settings ask for. -/
def config (s : Settings) : Config := ⟨s.typeStem, s.rowStem, s.trace⟩

/-- The single settings. -/
inductive Key where
  | logFilter
  | trace
  | typeStem
  | rowStem
  deriving DecidableEq

/-- The name of a setting. -/
def Key.name : Key → String
  | logFilter => "log_filter"
  | trace => "trace"
  | typeStem => "fresh_type_prefix"
  | rowStem => "fresh_row_prefix"

/-- The name of the environment variable of a setting, in lower case. -/
def Key.envName (k : Key) : String := "rowpoly_" ++ k.name

/-- A value as it is found, before it is checked. -/
inductive Value where
  | text (s : String)
  | flag (b : Bool)
  | number (n : Int)
  /-- A value of any other kind. -/
  | other
  deriving DecidableEq

/-- What is wrong with a value. -/
inductive Defect where
  | notText
  | notBoolean
  | tooShort
  | tooLong
  deriving DecidableEq

/-- The code of a defect. -/
def Defect.code : Defect → String
  | notText => "string_type"
  | notBoolean => "bool_parsing"
  | tooShort => "string_too_short"
  | tooLong => "string_too_long"

/-- The wording of a defect. -/
def Defect.message : Defect → String
  | notText => "Input should be a valid string"
  | notBoolean => "Input should be a valid boolean, unable to interpret input"
  | tooShort => "String should have at least 1 character"
  | tooLong => "String should have at most 1 character"

/-- A setting with a bad value. -/
structure Problem where
  key : Key
  defect : Defect
  deriving DecidableEq

/-- Where settings come from. -/
structure Sources where
  /-- Values that go before all others, by the name of the setting. -/
  overrides : List (String × Value)
  /-- The environment variables. -/
  environment : List (String × String)
  /-- The text of the file of variables. -/
  file : Option String

/-- The first value of a name in any case; the name is given in lower case. -/
def lookupAnyCase {α : Type} (values : List (String × α)) (name : String) : Option α :=
  (values.find? fun v => Text.lower v.1.toList == name.toList).map Prod.snd

/-- The variables of the file; some may have no value. -/
def Sources.fileVariables (src : Sources) : List (String × Option String) :=
  match src.file with
  | some text => (DotEnv.parse src.environment text).entries
  | none => []

/-- What cannot be read in the file. -/
def Sources.warnings (src : Sources) : List String :=
  match src.file with
  | some text => DotEnv.warnings text
  | none => []

/-- The value that counts for a setting, unless it is the default. If a name stands in several
spellings, the first of the overrides counts and the last of the variables. -/
def Sources.value? (src : Sources) (k : Key) : Option Value :=
  lookupAnyCase src.overrides k.name <|>
  (lookupAnyCase src.environment.reverse k.envName).map .text <|>
  (lookupAnyCase src.fileVariables.reverse k.envName).join.map .text

/-- The words that stand for truth values. -/
def booleanWords : List (String × Bool) :=
  [("true", true), ("t", true), ("yes", true), ("y", true), ("on", true), ("1", true),
    ("false", false), ("f", false), ("no", false), ("n", false), ("off", false), ("0", false)]

/-- Reads a text. -/
def Value.toText : Value → Except Defect String
  | text s => .ok s
  | _ => .error .notText

/-- Reads a text of one character. -/
def Value.toStem : Value → Except Defect String
  | text s =>
    match s.toList with
    | [] => .error .tooShort
    | [_] => .ok s
    | _ => .error .tooLong
  | _ => .error .notText

/-- Reads a truth value: a flag, zero or one, or one of the words for it in any case. -/
def Value.toBool : Value → Except Defect Bool
  | flag b => .ok b
  | number 0 => .ok false
  | number 1 => .ok true
  | text s =>
    match booleanWords.find? fun w => Text.sameIgnoringCase w.1 s with
    | some w => .ok w.2
    | none => .error .notBoolean
  | _ => .error .notBoolean

/-- Reads a setting, or takes its default. -/
def Sources.read {α : Type} (src : Sources) (k : Key) (default : α)
    (reader : Value → Except Defect α) : Except Problem α :=
  match src.value? k with
  | none => .ok default
  | some v => (reader v).mapError fun d => ⟨k, d⟩

/-- The problem of a setting, if it has one. -/
def problemOf {α : Type} : Except Problem α → List Problem
  | .ok _ => []
  | .error p => [p]

/-- Reads all settings. -/
def load (src : Sources) : Except (List Problem) Settings :=
  let logFilter := src.read .logFilter default.logFilter Value.toText
  let trace := src.read .trace default.trace Value.toBool
  let typeStem := src.read .typeStem default.typeStem Value.toStem
  let rowStem := src.read .rowStem default.rowStem Value.toStem
  match logFilter, trace, typeStem, rowStem with
  | .ok l, .ok t, .ok a, .ok r => .ok ⟨l, t, a, r⟩
  | _, _, _, _ =>
    .error (problemOf logFilter ++ problemOf trace ++ problemOf typeStem ++ problemOf rowStem)

end Settings

end RowTyping
