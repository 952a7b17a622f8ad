import RowTyping.Logging.Setup
import RowTyping.Sample
import RowTyping.Settings
import RowTyping.Text.Terminal

/-! # The command line

`examples` infers the types of all samples and `show NAME` that of one; both
take `--trace`. Options may stand anywhere after the command, and `--` ends
them. The whole run is a function of the arguments and of where settings come
from; it says what is to be written and what the process ends with. -/

namespace RowTyping.Cli

/-- What the command line asks for. -/
inductive Command where
  | help
  /-- Infer all samples. -/
  | examples (trace : Bool)
  /-- Infer one sample. -/
  | sample (name : String) (trace : Bool)
  deriving DecidableEq

/-- The arguments of a command, sorted. -/
structure Arguments where
  help : Bool := false
  trace : Bool := false
  /-- The arguments that are no options, in order. -/
  positional : List String := []
  deriving DecidableEq

/-- Whether an argument has the form of an option. -/
def isOption (arg : String) : Bool :=
  match arg.toList with
  | '-' :: _ :: _ => true
  | _ => false

/-- Sorts the arguments of a command; `none` for an unknown option. -/
def Arguments.parse : List String → Option Arguments
  | [] => some {}
  | "--" :: rest => some { positional := rest }
  | "--help" :: rest => (parse rest).map fun a => { a with help := true }
  | "--trace" :: rest => (parse rest).map fun a => { a with trace := true }
  | arg :: rest =>
    if isOption arg then none
    else (parse rest).map fun a => { a with positional := arg :: a.positional }

/-- Reads the arguments of a command, given what to make of those that are no options and of
`--trace`. Asking for help goes before any fault in the other arguments. -/
def Command.ofArguments (make : List String → Bool → Option Command) (args : List String) :
    Option Command :=
  match Arguments.parse args with
  | some a => if a.help then some help else make a.positional a.trace
  | none => none

/-- Reads what follows the name of a command; `none` for wrong usage. -/
def Command.ofName (name : String) (args : List String) : Option Command :=
  if name = "examples" then
    ofArguments (fun names trace => if names.isEmpty then some (examples trace) else none) args
  else if name = "show" then
    ofArguments (fun names trace => match names with
      | [x] => some (sample x trace)
      | _ => none) args
  else none

/-- Whether no unknown option stands before the command. -/
def leadingOptionsOk : List String → Bool
  | [] => true
  | "--help" :: rest => leadingOptionsOk rest
  | arg :: _ => arg == "--" || !isOption arg

/-- Reads a command line; `none` for wrong usage. Before the command only `--help` and `--` may
stand. -/
def Command.parse : List String → Option Command
  | [] => none
  | "--help" :: rest => if leadingOptionsOk rest then some help else none
  | "--" :: name :: args => ofName name args
  | name :: args => if isOption name then none else ofName name args

/-- The levels at which the program itself logs. -/
inductive Level where
  | debug
  | info
  deriving DecidableEq

/-- The name of a level. -/
def Level.name : Level → String
  | debug => "DEBUG"
  | info => "INFO"

/-- What a run of the program writes and ends with. -/
structure Report where
  exitCode : Nat := 0
  stdout : String := ""
  stderr : String := ""
  /-- The requests for setting up the log. -/
  setups : List Logging.Request := []
  /-- The messages logged, whether the log shows them or not. -/
  log : List (Level × String) := []
  deriving DecidableEq

/-- The log lines that the console shows. -/
def Report.logLines (r : Report) : List String :=
  let shown := fun level : Level => r.setups.getLast?.any fun q =>
    (q.sink.thresholds.get? "").any fun t => t.admits level.name
  (r.log.filter fun m => shown m.1).map fun m => m.1.name ++ " " ++ m.2

/-- How to use the program. -/
def usage : String := "usage: examples [--trace] | show NAME [--trace]\n"

/-- The report on wrong usage. -/
def Report.wrongUsage : Report := { exitCode := 2, stderr := usage }

/-- The name of a truth value in messages. -/
def boolName (b : Bool) : String := if b then "True" else "False"

/-- Infers a sample in a run of its own. Returns whether it has a type, the line to show and the
messages logged. -/
def runSample (cfg : Config) (s : Sample) : Bool × String × List (Level × String) :=
  let (ok, text, state) := match s.outcome cfg {} with
    | .ok o state =>
      let text := match o.render with
        | .ok t => t
        | .error f => f.message
      (o.isOk, text, state)
    | .error f state => (false, f.message, state)
  let steps := state.log.toList.map fun e => (Level.debug, e.message)
  (ok, s.name ++ ": " ++ s.expr.render ++ " :: " ++ text ++ "\n",
    steps ++ [(.debug, "example.done name=" ++ s.name ++ " ok=" ++ boolName ok)])

/-- The request for the log that settings lead to. -/
def logRequest (s : Settings) : Logging.Request := ⟨"cli", if s.trace then "debug" else s.logFilter⟩

/-- The sources of settings, with the option `--trace`. -/
def withTrace (src : Settings.Sources) (trace : Bool) : Settings.Sources :=
  if trace then { src with overrides := (Settings.Key.trace.name, .flag true) :: src.overrides }
  else src

/-- Infers all samples. -/
def runExamples (s : Settings) : Report :=
  let results := Sample.all.map (runSample s.config)
  { stdout := Text.dropControls (String.join (results.map fun r => r.2.1))
    setups := [logRequest s]
    log := (.info, "examples.start count=" ++ toString Sample.all.length) ::
      results.flatMap fun r => r.2.2 }

/-- Infers one sample. -/
def runShow (s : Settings) (name : String) : Report :=
  match Sample.find? name with
  | none =>
    { exitCode := 2
      stderr := Text.dropControls ("unknown example: " ++ name ++ "\n")
      setups := [logRequest s] }
  | some sample =>
    let (ok, line, log) := runSample s.config sample
    { exitCode := if ok then 0 else 1
      stdout := Text.dropControls line
      setups := [logRequest s]
      log := log }

/-- Runs a command with the settings it needs. Warnings about the sources of settings come before
what the command writes. -/
def withSettings (src : Settings.Sources) (trace : Bool) (command : Settings → Report) :
    Except (List Settings.Problem) Report :=
  (Settings.load (withTrace src trace)).map fun s =>
    let report := command s
    let warnings := src.warnings.map fun w => w ++ "\n"
    { report with stderr := String.join warnings ++ report.stderr }

/-- Runs the program. Bad settings end it before it does anything. -/
def run (args : List String) (src : Settings.Sources) :
    Except (List Settings.Problem) Report :=
  match Command.parse args with
  | none => .ok .wrongUsage
  | some .help => .ok { stdout := usage }
  | some (.examples trace) => withSettings src trace runExamples
  | some (.sample name trace) => withSettings src trace fun s => runShow s name

end RowTyping.Cli
