/-
LintHost/Host/Machine.lean

Machines as values: a disk, and programs that are found by name.  A plan that is
carried out on a machine changes its disk by the requests that it makes, one after the
other, and nothing else does.
Main facts: plans in a row are carried out in a row (`run_bind`).
-/
import LintHost.Analyzer.Launch
import LintHost.Host.Plan
import LintHost.Storage.Disk

namespace LintHost

open Analyzer Storage

/-- A program: what it does when it is run with its arguments, in a directory, with what it
reads from its standard input.  It may keep a state from run to run. -/
abbrev Program (σ : Type) := σ → List String → Place → String → Course × σ

/-- A machine. -/
structure Machine (σ : Type) where
  disk : Disk
  /-- The programs by name. -/
  program? : String → Option (Program σ)
  /-- What the programs keep. -/
  state : σ

namespace Machine

variable {σ α β : Type}

/-- The program and the directory of a run. -/
def launch (m : Machine σ) (call : Invocation) : Except StartFault (Program σ × Place) :=
  match m.program? call.program with
  | none => .error .notFound
  | some program =>
    if call.hasNul then .error .nulInArgument
    else
      match call.directory with
      | none => .ok (program, m.disk.current)
      | some directory =>
        match m.disk.findDirectory directory with
        | .error fault => .error (.directory fault)
        | .ok place => .ok (program, place)

/-- Runs a program. -/
def runProgram (m : Machine σ) (call : Invocation) : Except Failure Output × Machine σ :=
  match m.launch call with
  | .error fault => (.error (.ofStart call.program fault), m)
  | .ok (program, place) =>
    let (course, state) := program m.state call.arguments place (call.input.getD "")
    (course.outcome call, { m with state })

/-- The machine with another disk, beside an answer. -/
def withDisk (m : Machine σ) (p : α × Disk) : α × Machine σ :=
  (p.1, { m with disk := p.2 })

/-- The answer to a request, and the machine after it. -/
def answer (m : Machine σ) : (r : Request) → r.Answer × Machine σ
  | .read file => (m.disk.read file, m)
  | .isThere file => (m.disk.isThere file, m)
  | .makeDirectories directory => m.withDisk (m.disk.makeDirectories directory)
  | .makeTemporary directory => m.withDisk (m.disk.makeTemporary directory)
  | .write file content => m.withDisk (m.disk.write file content)
  | .permissions file => (m.disk.permissions file, m)
  | .setPermissions file mode => m.withDisk (m.disk.setPermissions file mode)
  | .rename file target => m.withDisk (m.disk.rename file target)
  | .remove file => m.withDisk ((), m.disk.remove file)
  | .run call =>
    let (result, m) := m.runProgram call
    (result.map (·.text), m)

/-- Carries out a plan. -/
def run (m : Machine σ) : Plan α → α × Machine σ
  | .done a => (a, m)
  | .ask r next =>
    let (answer, m) := m.answer r
    m.run (next answer)

theorem run_bind (m : Machine σ) (p : Plan α) (f : α → Plan β) :
    m.run (p.bind f) = (m.run p).2.run (f (m.run p).1) := by
  induction p generalizing m with
  | done a => rfl
  | ask r next ih => exact ih _ _

end Machine

end LintHost
