/-
LintHost/Analyzer/Failure.lean

How a run of the analyzer fails, and how it ends.  A run that could not be started
would fail the same way everywhere, so it alone ends a scan of several roots.
-/
import LintHost.Finding.Report

namespace LintHost.Analyzer

/-! ### Ends of processes -/

/-- How a process ended. -/
inductive Status where
  | exited (code : Nat)
  | signalled (signal : Nat)
  deriving DecidableEq, Repr, Inhabited

/-- The names of the signals, from the first one on. -/
def signalNames : List String :=
  ["SIGHUP", "SIGINT", "SIGQUIT", "SIGILL", "SIGTRAP", "SIGABRT", "SIGBUS", "SIGFPE", "SIGKILL",
    "SIGUSR1", "SIGSEGV", "SIGUSR2", "SIGPIPE", "SIGALRM", "SIGTERM", "SIGSTKFLT", "SIGCHLD",
    "SIGCONT", "SIGSTOP", "SIGTSTP", "SIGTTIN", "SIGTTOU", "SIGURG", "SIGXCPU", "SIGXFSZ",
    "SIGVTALRM", "SIGPROF", "SIGWINCH", "SIGIO", "SIGPWR", "SIGSYS"]

/-- The name of a signal, if it has one. -/
def signalName? (signal : Nat) : Option String :=
  if signal = 0 then none else signalNames[signal - 1]?

/-- The text shown for the end of a process. -/
def Status.message : Status → String
  | .exited code => "exit status: " ++ toString code
  | .signalled signal =>
    "signal: " ++ toString signal
      ++ ((signalName? signal).map fun name => " (" ++ name ++ ")").getD ""

/-- Whether a process ended as the analyzer does after it has looked at everything: with 0 if
it found nothing and with 1 if it found something. -/
def Status.isAccepted : Status → Bool
  | .exited code => code == 0 || code == 1
  | .signalled _ => false

/-! ### Failures -/

/-- How a run of the analyzer fails. -/
inductive Failure where
  /-- The program could not be started. -/
  | start (program cause : String)
  /-- Reading from or writing to the program failed. -/
  | transfer (program cause : String)
  /-- The program wrote to its error stream. -/
  | complaint (program text : String)
  /-- The program ended in another way than the analyzer does. -/
  | status (program : String) (status : Status)
  /-- The program ran for longer than so many milliseconds. -/
  | timeout (program : String) (milliseconds : Nat)
  /-- The program wrote more than so many bytes. -/
  | overflow (program : String) (limit : Nat)
  /-- What the program wrote is no report. -/
  | report (fault : ReportFault)
  deriving DecidableEq, Repr

/-- The wording of a fault in a report.  Where in the text JSON breaks off is not told. -/
def reportCause : ReportFault → String
  | .text _ => "<json>"
  | .shape => "data did not match any variant of untagged enum RawPayload"

namespace Failure

/-- What lies behind a failure, where that is a failure of its own. -/
def cause? : Failure → Option String
  | start _ cause | transfer _ cause => some cause
  | report fault => some (reportCause fault)
  | _ => none

/-- The text shown for a failure. -/
def message : Failure → String
  | start program cause => "failed to start " ++ program ++ ": " ++ cause
  | transfer program cause => "I/O error while running " ++ program ++ ": " ++ cause
  | complaint program text => program ++ " reported an error: " ++ text
  | status program ended => program ++ " failed with " ++ ended.message
  | timeout program milliseconds =>
    program ++ " timed out after " ++ toString (milliseconds / 1000) ++ "s"
  | overflow program limit =>
    program ++ " produced more than " ++ toString limit ++ " bytes of output"
  | report fault => "invalid diagnostic JSON: " ++ reportCause fault

/-- Whether a failure would repeat for every root. -/
def endsScan : Failure → Bool
  | start _ _ => true
  | _ => false

end Failure

/-- What a run of the analyzer gives: its output, or how it failed. -/
abbrev Reply := Except Failure String

end LintHost.Analyzer
