import RowTyping.Logging.Filter

/-! # Setting up the log

The log of a process writes to a list of sinks. Setting it up removes all sinks
and adds the one that is asked for; asking for the same again right after does
nothing. A sink may be refused, and what was done before that stays done. -/

namespace RowTyping.Logging

/-- Where a sink writes. -/
inductive Target where
  /-- The console of an interactive program. -/
  | console
  /-- The standard error stream. -/
  | standardError
  deriving DecidableEq

/-- The layout of a line. -/
def Target.layout : Target → String
  | console => "\x7bmessage\x7d"
  | standardError =>
    "\x7btime:YYYY-MM-DD HH:mm:ss.SSS\x7d | \x7blevel:<6\x7d | " ++
      "\x7bname\x7d:\x7bfunction\x7d:\x7bline\x7d | \x7bmessage\x7d"

/-- A place for log lines, with what it lets through. -/
structure Sink where
  target : Target
  thresholds : OrderedMap String Threshold
  deriving DecidableEq

/-- What is asked of the log. -/
structure Request where
  /-- The kind of program: `cli` for an interactive one. -/
  profile : String
  /-- The text of the filter. -/
  filter : String
  deriving DecidableEq

/-- The sink that a request asks for. -/
def Request.sink (r : Request) : Sink :=
  ⟨if r.profile = "cli" then .console else .standardError, (Filter.parse r.filter).thresholds⟩

/-- An action on the sinks. -/
inductive Action where
  | removeAll
  | add (sink : Sink)
  deriving DecidableEq

/-- The log of a process. -/
structure Log where
  sinks : List Sink := []
  /-- The request that was last carried out. -/
  configured : Option Request := none
  /-- Whether messages of other libraries are forwarded to the log. -/
  forwarding : Bool := false
  /-- The actions tried so far. -/
  actions : List Action := []
  deriving DecidableEq

/-- Changes of the log, which a refused sink ends. -/
abbrev SetupM := EStateM Sink Log

/-- Removes all sinks. -/
def removeAll : SetupM Unit :=
  modify fun l => { l with sinks := [], actions := l.actions ++ [.removeAll] }

/-- Adds a sink, unless it is refused. -/
def add (accepts : Sink → Bool) (s : Sink) : SetupM Unit := do
  modify fun l => { l with actions := l.actions ++ [.add s] }
  unless accepts s do throw s
  modify fun l => { l with sinks := l.sinks ++ [s] }

/-- Carries out a request, unless it is the one that was last carried out. -/
def configure (accepts : Sink → Bool) (r : Request) : SetupM Unit := do
  if (← get).configured = some r then return
  removeAll
  add accepts r.sink
  modify fun l => { l with forwarding := true, configured := some r }

end RowTyping.Logging
