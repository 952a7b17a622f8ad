import RowTyping.Cli

/-! # The program

Reads the environment and the file `.env`, runs the command line and writes what
it says. -/

namespace RowTyping

/-- The environment variables of the settings, in upper and lower case. -/
def readVariables : IO (List (String × String)) := do
  let keys : List Settings.Key := [.logFilter, .trace, .typeStem, .rowStem]
  let names := keys.flatMap fun k => [k.envName.toUpper, k.envName]
  names.filterMapM fun name => do
    return (← IO.getEnv name).map fun value => (name, value)

/-- The text of the file of variables, if there is one. -/
def readFile : IO (Option String) := do
  try
    return some (← IO.FS.readFile ".env")
  catch _ =>
    return none

/-- Runs the program and returns its exit code. -/
def runMain (args : List String) : IO UInt32 := do
  let src : Settings.Sources := ⟨[], ← readVariables, ← readFile⟩
  match Cli.run args src with
  | .ok report =>
    for line in report.logLines do
      (← IO.getStderr).putStrLn line
    (← IO.getStdout).putStr report.stdout
    (← IO.getStderr).putStr report.stderr
    return report.exitCode.toUInt32
  | .error problems =>
    for p in problems do
      (← IO.getStderr).putStrLn (p.key.name ++ ": " ++ p.defect.message)
    return 1

end RowTyping

def main (args : List String) : IO UInt32 := RowTyping.runMain args
