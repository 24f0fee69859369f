/-
LintHost/Analyzer/Launch.lean

Programs that run.  A program is looked up, then started in its directory, and only
then does it write and end.  It is stopped when it has written too much or when its
time is up.
Main facts: a program that ends in time has the outcome of what it wrote
(`outcome_of_lt`).
-/
import LintHost.Analyzer.Capture
import LintHost.Analyzer.Invocation
import LintHost.Storage.Fault

namespace LintHost.Analyzer

/-- Why a program cannot be started. -/
inductive StartFault where
  /-- There is no such program. -/
  | notFound
  /-- An argument or the directory holds the byte that ends texts. -/
  | nulInArgument
  /-- The program cannot run in the directory. -/
  | directory (fault : Storage.Fault)
  deriving DecidableEq, Repr

/-- The text shown for a program that cannot be started. -/
def StartFault.message : StartFault → String
  | notFound => "cannot find binary path"
  | nulInArgument => "nul byte found in provided data"
  | directory fault => fault.message

/-- A run that could not be started, as a failure. -/
def Failure.ofStart (program : String) (fault : StartFault) : Failure :=
  .start program fault.message

/-- Whether an argument or the directory of a run holds the byte that ends texts. -/
def Invocation.hasNul (call : Invocation) : Bool :=
  (call.arguments.map RawText.ofString ++ (call.directory.map (·.raw)).toList).any RawText.hasNul

/-- What a running program does, as it is seen from outside. -/
structure Course where
  /-- What it writes, piece by piece. -/
  pieces : List (Channel × List UInt8)
  status : Status
  /-- How long it runs, in milliseconds. -/
  duration : Nat := 0
  deriving Repr

/-- The outcome of a run that takes a given course. -/
def Course.outcome (c : Course) (call : Invocation) : Except Failure Output :=
  match Capture.receiveAll call.maxOutputBytes {} c.pieces with
  | none => .error (.overflow call.program call.maxOutputBytes)
  | some kept =>
    if c.duration < call.timeout then Analyzer.outcome call.program kept c.status
    else .error (.timeout call.program call.timeout)

theorem Course.outcome_of_lt {c : Course} {call : Invocation} (h : c.duration < call.timeout) :
    c.outcome call = collect call.program call.maxOutputBytes c.pieces c.status := by
  unfold Course.outcome collect
  split <;> simp_all

end LintHost.Analyzer
