/-
LintHost/Command/Run.lean

Carrying out commands.  A command ends with what it shows on its two streams and with
an exit code: one if it has failed or has found an error, else zero.  A file that is
given is taken under its absolute path.
-/
import LintHost.Command.Basic
import LintHost.Diff.Unified
import LintHost.Document.Format
import LintHost.Document.Lint
import LintHost.Rendering
import LintHost.Scanner.Basic
import LintHost.Settings.Toggle

namespace LintHost

open Analyzer Storage

/-- What a command shows, and its exit code. -/
structure Outcome where
  output : String := ""
  errors : String := ""
  code : Nat := 0
  deriving DecidableEq, Repr, Inhabited

/-- Where a command runs. -/
structure Setting where
  environment : Environment
  directory : Path
  deriving Repr, Inhabited

namespace Command

/-! ### Failures -/

/-- Why a command fails: the messages from the outermost to the innermost one. -/
abbrev Chain := List String

/-- The failures of settings. -/
def ofTrouble (t : Settings.Trouble) : Chain :=
  t.message :: t.cause?.toList

/-- The failures of the analyzer. -/
def ofFailure (f : Failure) : Chain :=
  f.message :: f.cause?.toList

/-- A failure behind a message of its own. -/
def behind (message : String) (chain : Chain) : Chain :=
  message :: chain

/-- A plan whose failures are put as messages. -/
def attempt {ε α : Type} (tell : ε → Chain) (p : Plan (Except ε α)) : Attempt Chain α :=
  ExceptT.mk (p.bind fun r => .done (r.mapError tell))

/-- A consultation within a command. -/
def asking {α : Type} (c : Consult (Except Failure α)) : Attempt Chain α :=
  attempt ofFailure (Plan.consult c)

/-- A command that fails shows its chain and exits with one. -/
def failed (chain : Chain) : Outcome :=
  { errors := "error: " ++ String.intercalate ": " chain ++ "\n", code := 1 }

/-- What is shown of a command, whether or not it fails. -/
def outcome : Except Chain Outcome → Outcome
  | .ok o => o
  | .error chain => failed chain

/-! ### Settings and documents -/

/-- The settings that a command runs under. -/
def loadSettings (at' : Setting) (file : Option Path) : Attempt Chain Settings :=
  attempt (fun t => behind "failed to load configuration" (ofTrouble t)) <|
    match file with
    | some file => Settings.loadFrom at'.environment file
    | none => Settings.load at'.environment

/-- The document in a file. -/
def readDocument (at' : Setting) (file : Path) : Attempt Chain Document := do
  let path := Path.absolute at'.directory file
  let text ← attempt (fun fault => behind ("failed to read " ++ path.text) [fault.message])
    (readText path)
  return ⟨path, text⟩

/-! ### Diagnostics -/

/-- The exit code after diagnostics have been shown. -/
def codeFor (ds : List Diagnostic) : Nat :=
  if Board.hasError ds then 1 else 0

/-- A JSON text in lines of its own.  The command fails if there is none. -/
def jsonLines : Option String → Except Chain String
  | some text => .ok (text ++ "\n")
  | none => .error ["path contains invalid UTF-8 characters"]

/-- What the check of a file shows. -/
def shownCheck (ds : List Diagnostic) (json : Bool) : Except Chain Outcome :=
  let code := codeFor ds
  if json then do return { output := ← jsonLines (Rendering.json? ds), code }
  else .ok { output := Rendering.lines ds, code }

/-- What a scan shows. -/
def shownScan (project opened : Board) (json : Bool) : Except Chain Outcome :=
  let code := codeFor (project.shown ++ opened.shown)
  if json then do return { output := ← jsonLines (Rendering.scanJson? project opened), code }
  else
    let status := Rendering.statusLine project opened
    .ok {
      output := Rendering.lines project.shown ++ Rendering.lines opened.shown
      errors := if status = "" then "" else status ++ "\n"
      code }

/-! ### Single files -/

/-- Shows the diagnostics of a file. -/
def check (at' : Setting) (s : Settings) (file : Path) (json : Bool) :
    Attempt Chain Outcome := do
  let ds ← asking ((← readDocument at' file).report s)
  .mk (.done (shownCheck ds json))

/-- Writes a changed document to its file, or shows what has changed. -/
def writeBack (before after : Document) (diff : Bool) : Attempt Chain Outcome := do
  if after.text = before.text then return {}
  if diff then return { output := Diff.unified after.path.text before.text after.text }
  attempt (fun fault => behind ("failed to write " ++ after.path.text) [fault.message])
    (replaceText after.path after.text)
  return {}

/-- Fixes a file. -/
def fix (at' : Setting) (s : Settings) (file : Path) (diff : Bool) :
    Attempt Chain Outcome := do
  let d ← readDocument at' file
  let text ← asking (d.fixedText s)
  writeBack d { d with text := text.getD d.text } diff

/-- Formats a file, or some lines of it. -/
def format (at' : Setting) (s : Settings) (file : Path) (lines : Option LineRange)
    (diff : Bool) : Attempt Chain Outcome := do
  let d ← readDocument at' file
  let (result, after) ← ExceptT.lift <| Plan.consult <|
    match lines with
    | some r => d.formatLines s r
    | none => d.format s
  match result with
  | .error failure => throw (ofFailure failure)
  | .ok _ => writeBack d after diff

/-! ### Scans -/

/-- Carries a scan through to its end.  `fuel` is the number of roots. -/
def follow : (fuel : Nat) → Scanner.Step → Plan Scanner.Step
  | 0, step => .done step
  | fuel + 1, step =>
    match step.progress with
    | .waiting call => .ask (.run call) fun reply => follow fuel (step.scanner.receive reply)
    | _ => .done step

/-- Lints the files that are taken as open, each of which the scanner hands over before. -/
def lintOpened (at' : Setting) (s : Settings) :
    List Path → Scanner → Board → Board → Attempt Chain (Board × Board)
  | [], _, project, opened => return (project, opened)
  | file :: files, scanner, project, opened => do
    let (_, notices, scanner) := scanner.clearFile file
    let d ← readDocument at' file
    let ds ← asking (d.report s)
    lintOpened at' s files scanner (project.applyAll notices) (opened.set d.path ds)

/-- Scans roots, by default the directory that the command runs in. -/
def scan (at' : Setting) (s : Settings) (roots opened : List Path) (json : Bool) :
    Attempt Chain Outcome := do
  let absolute := Path.absolute at'.directory
  let roots := if roots = [] then [at'.directory] else roots.map absolute
  let opened := opened.map absolute
  let start := Scanner.start { settings := s } roots opened
  let step ← ExceptT.lift (follow roots.length start)
  match step.progress with
  | .failed => throw ["project scan failed (rerun with -v for details)"]
  | _ => do
    let project := Board.empty.applyAll step.notices
    let (project, opened) ← lintOpened at' s opened step.scanner project Board.empty
    .mk (.done (shownScan project opened json))

/-! ### Settings -/

/-- Turns a switch over. -/
def toggle (at' : Setting) (file : Option Path) (w : Settings.Switch) :
    Attempt Chain Outcome := do
  match file <|> Settings.file? at'.environment with
  | none => throw (ofTrouble .noHome)
  | some file =>
    let on ← attempt ofTrouble (Settings.toggleIn file w)
    return { output := w.key ++ " = " ++ (if on then "true" else "false") ++ "\n" }

/-- Shows a path. -/
def showPath (path : Option Path) (message : String) : Attempt Chain Outcome :=
  match path with
  | none => throw [message]
  | some path => return { output := path.text ++ "\n" }

/-! ### Commands -/

/-- Carries out a command. -/
def attemptRun (at' : Setting) (c : Command) : Attempt Chain Outcome :=
  match c.action with
  | .check file json => do check at' (← loadSettings at' c.settingsFile) file json
  | .fix file diff => do fix at' (← loadSettings at' c.settingsFile) file diff
  | .format file lines diff => do
    format at' (← loadSettings at' c.settingsFile) file lines diff
  | .scan roots opened json => do
    scan at' (← loadSettings at' c.settingsFile) roots opened json
  | .settingsPath =>
    showPath (c.settingsFile <|> Settings.file? at'.environment)
      "cannot determine home directory"
  | .analyzerPath =>
    showPath (Settings.analyzerFile? at'.environment) "cannot determine config directory"
  | .toggle w => toggle at' c.settingsFile w

/-- What a command comes to. -/
def run (at' : Setting) (c : Command) : Plan Outcome :=
  (attemptRun at' c).run.bind fun result => .done (outcome result)

end Command

end LintHost
