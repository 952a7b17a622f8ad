import RowTyping.Data.OrderedMap
import RowTyping.Logging.Level
import RowTyping.Text.Blank
import RowTyping.Text.Case

/-! # Log filters

A filter is written as parts divided by commas: `level` for all messages, and
`module=level` or `module=false` for those of one module. -/

namespace RowTyping.Logging

/-- Which messages of a module are shown. -/
inductive Threshold where
  /-- None. -/
  | silent
  /-- Those of this level and above. -/
  | level (name : String)
  deriving DecidableEq

/-- Whether a threshold lets a level through. Nothing is above a level that is not known. -/
def Threshold.admits (t : Threshold) (level : String) : Bool :=
  match t with
  | silent => false
  | .level name =>
    match severity? name, severity? level with
    | some least, some n => least ≤ n
    | _, _ => false

/-- Which messages are shown. -/
structure Filter where
  /-- The level for messages of all other modules. -/
  level : String
  /-- What holds for single modules, by their names. -/
  modules : OrderedMap String Threshold
  deriving DecidableEq

namespace Filter

/-- The filter that a text without any parts writes. -/
def default : Filter := ⟨"info", .empty⟩

/-- Divides a text at its first `=`. -/
def splitEq? (part : List Char) : Option (List Char × List Char) :=
  match part.dropWhile (· != '=') with
  | [] => none
  | _ :: after => some (part.takeWhile (· != '='), after)

/-- The threshold that a text in lower case writes. -/
def threshold (text : List Char) : Threshold :=
  if text = "false".toList then .silent else .level (String.ofList (Text.upper text))

/-- Adds what one part of the text says. -/
def addPart (f : Filter) (part : List Char) : Filter :=
  match splitEq? part with
  | none => { f with level := String.ofList part }
  | some (name, level) =>
    { f with modules :=
        f.modules.insert (String.ofList (Text.trim name)) (threshold (Text.trim level)) }

/-- The parts of a text between its commas, trimmed, without those that are empty. -/
def parts (text : List Char) : List (List Char) :=
  ((text.splitOn ',').map Text.trim).filter fun p => !p.isEmpty

/-- Reads a filter. Case does not matter, and of two parts for one thing the later counts. -/
def parse (text : String) : Filter := (parts (Text.lower text.toList)).foldl addPart default

/-- What holds for each module. The empty name stands for all modules that have no part of
their own. -/
def thresholds (f : Filter) : OrderedMap String Threshold :=
  if f.modules.contains "" then f.modules
  else f.modules.insert "" (.level (String.ofList (Text.upper f.level.toList)))

end Filter

end RowTyping.Logging
