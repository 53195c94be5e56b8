import TomlQuery.Command.Run
/-! # The output of a run

The writes of a run to the two output streams, in order, and what the process makes of a
failure that passed through the run: its message, a trace in debug mode, and exit code one.
-/
namespace TomlQuery.Command

/-- What an event writes to standard output. -/
def Event.stdout? : Event → Option String
  | output text => some text
  | _ => none

/-- What an event writes to standard error at a time. -/
def Event.stderr? (time : String) : Event → Option String
  | output _ => none
  | message text => some text
  | entry e => some (e.line time)

namespace Report

def stdout (report : Report) : List String := report.events.filterMap Event.stdout?

def stderr (time : String) (report : Report) : List String :=
  report.events.filterMap (Event.stderr? time)

def exitCode (report : Report) : Nat :=
  match report.result with
  | .ok completion => completion.exitCode.toNat
  | .error _ => ExitCode.generalError.toNat

/-- The lines that the process adds on standard error. -/
def crash (debug : Bool) (report : Report) : Except Unprintable (List Failure.CrashLine) :=
  match report.result with
  | .ok _ => .ok []
  | .error failure => failure.crash debug

end Report
end TomlQuery.Command
