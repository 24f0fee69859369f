/-
LintHost/Main.lean

The program.  It reads a command from its command line, carries the plan of the command
out on the files of the machine that it runs on, and shows the outcome.
Some requests have no counterpart among the means at hand here.  No other program is
started: every run of the analyzer is answered as one whose program is not found.
Permissions cannot be asked for: a replaced file gets those of a new one.  And a file is
reached by the text that is shown for its path, so one whose path is no text is not found.
-/
import LintHost.Analyzer.Launch
import LintHost.Command.Run

namespace LintHost.Main

open Storage

/-! ### Files -/

/-- The fault with a given number, of which the sign may be turned over. -/
def faultOfNumber (number : UInt32) (text : String) : Fault :=
  let number := min number.toNat (UInt32.size - number.toNat)
  let known := [Fault.missing, .busy, .alreadyExists, .notDirectory, .isDirectory, .nameTooLong]
  (([2, 16, 17, 20, 21, 36].zip known).lookup number).getD (.other (numbered text number))

/-- A refusal of the file system as a fault. -/
def faultOf : IO.Error → Fault
  | .alreadyExists _ number text | .otherError number text | .resourceBusy number text
  | .resourceVanished number text | .unsupportedOperation number text
  | .hardwareFault number text | .unsatisfiedConstraints number text
  | .illegalOperation number text | .protocolError number text | .timeExpired number text
  | .interrupted _ number text | .noFileOrDirectory _ number text
  | .invalidArgument _ number text | .permissionDenied _ number text
  | .resourceExhausted _ number text | .inappropriateType _ number text
  | .noSuchThing _ number text => faultOfNumber number text
  | .unexpectedEof => .other "unexpected end of file"
  | .userError text => .other text

/-- What comes of an action on files. -/
def attempt {α : Type} (action : IO α) : IO (Except Fault α) := do
  try return .ok (← action) catch e => return .error (faultOf e)

/-- The access rights of new files: none but for their owner. -/
def ownerOnly : IO.FileRight :=
  { user := { read := true, write := true } }

/-- Makes an empty file with a name of its own in a directory. -/
def makeTemporary (directory : Path) : IO Path := do
  let file := directory.join ⟨".tmp" ++ toString (← IO.monoNanosNow)⟩
  let _ ← IO.FS.Handle.mk file.text .writeNew
  IO.setAccessRights file.text ownerOnly
  return file

/-- Writes the content of a file. -/
def write (file : Path) (content : List UInt8) : IO Unit := do
  let handle ← IO.FS.Handle.mk file.text .write
  handle.write ⟨content.toArray⟩
  handle.flush

/-- The answer to a request. -/
def perform : (r : Request) → IO r.Answer
  | .read file => attempt do return (← IO.FS.readBinFile file.text).toList
  | .isThere file => do
    match ← attempt (IO.FS.realPath file.text) with
    | .ok _ => return true
    | .error _ => return false
  | .makeDirectories directory => attempt (IO.FS.createDirAll directory.text)
  | .makeTemporary directory => attempt (makeTemporary directory)
  | .write file content => attempt (write file content)
  | .permissions _ => return .error (.other "permissions cannot be asked for")
  | .setPermissions _ _ => return .ok ()
  | .rename file target => attempt (IO.FS.rename file.text target.text)
  | .remove file => do let _ ← attempt (IO.FS.removeFile file.text)
  | .run call => return .error (.ofStart call.program .notFound)

/-- Carries out a plan. -/
def carryOut {α : Type} : Plan α → IO α
  | .done a => return a
  | .ask r next => do carryOut (next (← perform r))

/-! ### Surroundings -/

/-- The variables of this process, from their list of texts that end in a null character. -/
def environmentOf (bytes : List UInt8) : Environment :=
  let texts := Text.splitOn '\x00' (Text.decodeLossy bytes)
  { values := texts.filterMap fun text =>
      (Text.splitFirst? '=' text).map fun v => (String.ofList v.1, String.ofList v.2) }

/-- Where this process runs. -/
def setting : IO Setting := do
  let environment ← match ← attempt (IO.FS.readBinFile "/proc/self/environ") with
    | .ok bytes => pure (environmentOf bytes.toList)
    | .error _ => pure ⟨[], none⟩
  return { environment, directory := ⟨(← IO.currentDir).toString⟩ }

/-- Shows what a command comes to. -/
def display (o : Outcome) : IO UInt32 := do
  (← IO.getStdout).putStr o.output
  (← IO.getStderr).putStr o.errors
  return o.code.toUInt32

/-- What is shown for a command line that is not carried out. -/
def outcomeOf (u : Usage) : Outcome :=
  let text := u.message ++ "\n"
  if u.isRequest then { output := text, code := u.exitCode }
  else { errors := "error: " ++ text, code := u.exitCode }

/-- Carries out the command of a command line. -/
def start (words : List String) : IO UInt32 := do
  match Command.read words with
  | .error usage => display (outcomeOf usage)
  | .ok command => display (← carryOut (Command.run (← setting) command))

end LintHost.Main

/-- The program. -/
def main (words : List String) : IO UInt32 :=
  LintHost.Main.start words
