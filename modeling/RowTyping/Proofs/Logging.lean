import Mathlib.Data.List.Induction
import RowTyping.Logging.Setup

/-!
# What the log holds after it was set up

A call to set up the log removes all sinks before it adds its own, and a refused sink ends it in
between. The request that was last carried out is remembered, and asking for it again does nothing.

Together the two leave a gap. A refused call takes away the sink of the request before it but does
not forget that request, so asking for it again returns and adds nothing (`Log.Dropped`). For any
calls in a row, of which some are refused, this is the only way in which a call can return without
its sink: in all other cases the log then holds exactly the sink that the call asked for. A call
does one of three things (`Call.run_cases`), and what a row of calls leaves behind follows by
induction on the row.
-/

namespace RowTyping.Logging

/-! ## A single call -/

/-- A call to set up the log, and which sinks are accepted at that time. -/
structure Call where
  request : Request
  accepts : Sink → Bool

/-- What the call does to the log. -/
def Call.run (c : Call) : SetupM Unit := configure c.accepts c.request

namespace Call

variable {c : Call} {log : Log}

theorem run_kept (h : log.configured = some c.request) : c.run log = .ok () log := by
  show (if log.configured = some c.request then _ else _ : SetupM Unit) log = _
  rw [if_pos h]
  rfl

theorem run_new (h : log.configured ≠ some c.request) :
    c.run log =
      if c.accepts c.request.sink then
        .ok () { sinks := [c.request.sink], configured := some c.request, forwarding := true,
                 actions := log.actions ++ [.removeAll] ++ [.add c.request.sink] }
      else
        .error c.request.sink { log with
          sinks := [], actions := log.actions ++ [.removeAll] ++ [.add c.request.sink] } := by
  show (if log.configured = some c.request then _ else _ : SetupM Unit) log = _
  rw [if_neg h]
  unfold add
  cases c.accepts c.request.sink <;> rfl

/-- A call does nothing because its request is the one last carried out, or it carries out its
request, or it is refused. Only the last of these ends with an error. -/
theorem run_cases (c : Call) (log : Log) :
    (log.configured = some c.request ∧ c.run log = .ok () log) ∨
    (log.configured ≠ some c.request ∧ ∃ log', c.run log = .ok () log' ∧
      log'.sinks = [c.request.sink] ∧ log'.configured = some c.request) ∨
    (log.configured ≠ some c.request ∧ ∃ log', c.run log = .error c.request.sink log' ∧
      log'.sinks = [] ∧ log'.configured = log.configured) := by
  by_cases h : log.configured = some c.request
  · exact .inl ⟨h, run_kept h⟩
  · rw [run_new h]
    by_cases ha : c.accepts c.request.sink = true
    · rw [if_pos ha]
      exact .inr (.inl ⟨h, _, rfl, rfl, rfl⟩)
    · rw [if_neg ha]
      exact .inr (.inr ⟨h, _, rfl, rfl, rfl⟩)

end Call

/-! ## Calls in a row -/

namespace Log

variable {r : Request} {log : Log}

/-- The log after a call, whether it returned or was refused. -/
def next (log : Log) (c : Call) : Log :=
  match c.run log with
  | .ok _ log' => log'
  | .error _ log' => log'

/-- The log after calls in a row. -/
def after (log : Log) (calls : List Call) : Log := calls.foldl next log

theorem next_of_ok {c : Call} {log' : Log} (h : c.run log = .ok () log') : log.next c = log' := by
  unfold next
  rw [h]

theorem next_of_error {c : Call} {s : Sink} {log' : Log} (h : c.run log = .error s log') :
    log.next c = log' := by
  unfold next
  rw [h]

theorem after_cons (log : Log) (c : Call) (calls : List Call) :
    log.after (c :: calls) = (log.next c).after calls := rfl

theorem after_append (log : Log) (calls later : List Call) :
    log.after (calls ++ later) = (log.after calls).after later := List.foldl_append

/-- The request last carried out may be asked for any number of times. -/
theorem after_kept (h : log.configured = some r) {calls : List Call}
    (hcalls : ∀ c ∈ calls, c.request = r) : log.after calls = log := by
  induction calls with
  | nil => rfl
  | cons c calls ih =>
    obtain ⟨rfl, hcalls⟩ := List.forall_mem_cons.1 hcalls
    rw [after_cons, next_of_ok (Call.run_kept h), ih hcalls]

/-- A call was refused while `r` was the request last carried out, and nothing but `r` has been
asked for since. -/
def Dropped (start : Log) (calls : List Call) (r : Request) : Prop :=
  ∃ before c later, calls = before ++ c :: later ∧ (start.after before).configured = some r ∧
    (∃ s log', c.run (start.after before) = .error s log') ∧ ∀ d ∈ later, d.request = r

variable {start : Log} {calls : List Call}

/-- A refused call does not forget the request last carried out. -/
theorem configured_of_error {c : Call} {s : Sink} {log' : Log} (h : c.run log = .error s log') :
    log'.configured = log.configured ∧ log'.sinks = [] := by
  obtain ⟨-, hrun⟩ | ⟨-, _, hrun, -⟩ | ⟨-, _, hrun, hsinks, hconf⟩ := c.run_cases log
  · cases h.symm.trans hrun
  · cases h.symm.trans hrun
  · obtain ⟨-, rfl⟩ := EStateM.Result.error.inj (h.symm.trans hrun)
    exact ⟨hconf, hsinks⟩

theorem Dropped.configured (h : start.Dropped calls r) :
    (start.after calls).configured = some r ∧ (start.after calls).sinks = [] := by
  obtain ⟨before, c, later, rfl, hconf, ⟨s, log', hrun⟩, hlater⟩ := h
  obtain ⟨hkept, hsinks⟩ := configured_of_error hrun
  have hconf' : log'.configured = some r := hkept.trans hconf
  rw [after_append, after_cons, next_of_error hrun, after_kept hconf' hlater]
  exact ⟨hconf', hsinks⟩

/-- Asking for `r` once more does not bring its sink back. -/
theorem Dropped.append {c : Call} (h : start.Dropped calls r) (hc : c.request = r) :
    start.Dropped (calls ++ [c]) r := by
  obtain ⟨before, d, later, rfl, hconf, hrun, hlater⟩ := h
  refine ⟨before, d, later ++ [c], by simp, hconf, hrun, fun x hx => ?_⟩
  rcases List.mem_append.1 hx with hx | hx
  · exact hlater x hx
  · rwa [List.mem_singleton.1 hx]

/-- The log holds the sink of the request last carried out, as long as no call was refused since. -/
theorem sinks_of_configured (hstart : start.configured = none)
    (hconf : (start.after calls).configured = some r) (hkeep : ¬start.Dropped calls r) :
    (start.after calls).sinks = [r.sink] := by
  induction calls using List.reverseRecOn generalizing r with
  | nil => cases hstart.symm.trans hconf
  | append_singleton calls c ih =>
    rw [after_append] at hconf ⊢
    obtain ⟨hreq, hrun⟩ | ⟨-, log', hrun, hsinks, hreq⟩ | ⟨-, log', hrun, -, hreq⟩ :=
      c.run_cases (start.after calls)
    · rw [after_cons, next_of_ok hrun] at hconf ⊢
      obtain rfl : c.request = r := Option.some.inj (hreq.symm.trans hconf)
      exact ih hconf fun hdrop => hkeep (hdrop.append rfl)
    · rw [after_cons, next_of_ok hrun] at hconf ⊢
      obtain rfl : c.request = r := Option.some.inj (hreq.symm.trans hconf)
      exact hsinks
    · rw [after_cons, next_of_error hrun] at hconf
      refine absurd ?_ hkeep
      exact ⟨calls, c, [], rfl, hreq.symm.trans hconf, ⟨_, _, hrun⟩, fun x hx => by cases hx⟩

/-- After calls in a row, some of which may have been refused, a call that returns leaves exactly
the sink that it asked for, unless a refused call took that sink away and only the same was asked
for since. Then the call leaves no sink at all. -/
theorem sinks_of_run (start : Log) (hstart : start.configured = none) (calls : List Call)
    (c : Call) (log' : Log) (h : c.run (start.after calls) = .ok () log') :
    (log'.sinks = [c.request.sink] ↔ ¬start.Dropped calls c.request) ∧
      (log'.sinks = [] ↔ start.Dropped calls c.request) := by
  have hone : [c.request.sink] ≠ [] := by simp
  obtain ⟨hconf, hrun⟩ | ⟨hconf, _, hrun, hsinks, -⟩ | ⟨-, _, hrun, -⟩ :=
    c.run_cases (start.after calls)
  · obtain ⟨-, rfl⟩ := EStateM.Result.ok.inj (hrun.symm.trans h)
    by_cases hdrop : start.Dropped calls c.request
    · rw [hdrop.configured.2]
      exact ⟨iff_of_false hone.symm (not_not_intro hdrop), iff_of_true rfl hdrop⟩
    · rw [sinks_of_configured hstart hconf hdrop]
      exact ⟨iff_of_true rfl hdrop, iff_of_false hone hdrop⟩
  · obtain ⟨-, rfl⟩ := EStateM.Result.ok.inj (hrun.symm.trans h)
    have hdrop : ¬start.Dropped calls c.request := fun hdrop => hconf hdrop.configured.1
    rw [hsinks]
    exact ⟨iff_of_true rfl hdrop, iff_of_false hone hdrop⟩
  · cases hrun.symm.trans h

end Log

/-! ## Unknown levels -/

/-- Whether a threshold names no level, or one that is known. -/
def Threshold.isKnown : Threshold → Bool
  | silent => true
  | level name => (severity? name).isSome

/-- A call for standard error at a time when a sink is refused if it names an unknown level. -/
def askFor (filter : String) : Call :=
  ⟨⟨"default", filter⟩, fun s => s.thresholds.values.all Threshold.isKnown⟩

/-- The log for which `info` was carried out and then a filter with an unknown level refused. -/
def halfDone : Log := ({} : Log).after [askFor "info", askFor "info,core=loud"]

theorem halfDone_calls : ∃ log, (askFor "info").run {} = .ok () log ∧
    log.configured = some (askFor "info").request ∧ log.sinks = [(askFor "info").request.sink] ∧
    (askFor "info,core=loud").run log =
      .error (askFor "info,core=loud").request.sink halfDone := by
  have hinfo : (askFor "info").accepts (askFor "info").request.sink = true := by decide +kernel
  have hloud : ¬(askFor "info,core=loud").accepts (askFor "info,core=loud").request.sink = true := by
    decide +kernel
  have hnew : some (askFor "info").request ≠ some (askFor "info,core=loud").request := by decide
  obtain ⟨hconf, -⟩ | ⟨-, log, hrun, hsinks, hconf⟩ | ⟨hconf, log, hrun, -⟩ :=
    (askFor "info").run_cases {}
  · cases hconf
  · refine ⟨log, hrun, hconf, hsinks, ?_⟩
    have hrefused := (Call.run_new (hconf ▸ hnew)).trans (if_neg hloud)
    unfold halfDone
    rw [Log.after_cons, Log.next_of_ok hrun, Log.after_cons, Log.next_of_error hrefused]
    exact hrefused
  · cases hrun.symm.trans ((Call.run_new hconf).trans (if_pos hinfo))

theorem Log.sinks_of_run_halfDone :
    (askFor "info").run halfDone = .ok () halfDone ∧
      ({} : Log).Dropped [askFor "info", askFor "info,core=loud"] (askFor "info").request ∧
      halfDone.sinks = [] := by
  obtain ⟨log, hinfo, hconf, -, hloud⟩ := halfDone_calls
  have hrun : (askFor "info").run halfDone = .ok () halfDone :=
    Call.run_kept ((Log.configured_of_error hloud).1.trans hconf)
  have hfirst : ({} : Log).after [askFor "info"] = log := by
    rw [Log.after_cons, Log.next_of_ok hinfo]
    rfl
  have hdrop : ({} : Log).Dropped [askFor "info", askFor "info,core=loud"]
      (askFor "info").request := by
    refine ⟨[askFor "info"], askFor "info,core=loud", [], rfl, ?_, ?_, by simp⟩
    · rw [hfirst, hconf]
    · rw [hfirst]
      exact ⟨_, _, hloud⟩
  exact ⟨hrun, hdrop, (Log.sinks_of_run {} rfl _ (askFor "info") halfDone hrun).2.2 hdrop⟩

/-- Not every call that returns leaves its sink: asked for again, `info` returns and adds nothing,
though the refused call in between took its sink away. -/
theorem Log.returns_without_sink :
    (∃ log, (askFor "info").run {} = .ok () log ∧ log.sinks = [(askFor "info").request.sink] ∧
      (askFor "info,core=loud").run log =
        .error (askFor "info,core=loud").request.sink halfDone) ∧
    (askFor "info").run halfDone = .ok () halfDone ∧
      halfDone.sinks ≠ [(askFor "info").request.sink] := by
  obtain ⟨log, hinfo, hconf, hsinks, hloud⟩ := halfDone_calls
  obtain ⟨hkept, hnone⟩ := Log.configured_of_error hloud
  refine ⟨⟨log, hinfo, hsinks, hloud⟩, Call.run_kept (hkept.trans hconf), ?_⟩
  rw [hnone]
  simp

end RowTyping.Logging
