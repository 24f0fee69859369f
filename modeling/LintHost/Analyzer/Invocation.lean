/-
LintHost/Analyzer/Invocation.lean

Runs of the analyzer, described in full before they start.
-/
import LintHost.Analyzer.Arguments

namespace LintHost.Analyzer

/-- One run of the analyzer. -/
structure Invocation where
  program : String
  arguments : List String
  /-- The directory that it runs in; the host's own if none is given. -/
  directory : Option Path
  /-- The text on its standard input; without one it reads from disk. -/
  input : Option String
  /-- In milliseconds. -/
  timeout : Nat
  maxOutputBytes : Nat
  deriving DecidableEq, Repr, Inhabited

namespace Invocation

/-- A run under the settings. -/
def ofSettings (s : Settings) (arguments : List String) (directory : Option Path)
    (input : Option String) : Invocation where
  program := s.executable
  arguments
  directory
  input
  timeout := s.limits.timeoutSeconds.toNat * 1000
  maxOutputBytes := s.limits.maxOutputBytes.toNat

/-- The check of a text as if it were the contents of a file, run beside the file. -/
def checkText (s : Settings) (file : Path) (text : String) (fix : Bool) : Invocation :=
  .ofSettings s (checkArguments s (.text file) fix) file.directory? (some text)

/-- The check of the files below a root, run there. -/
def checkRoot (s : Settings) (root : Path) : Invocation :=
  .ofSettings s (checkArguments s (.root root) false) (some root) none

/-- The formatting of a text as if it were the contents of a file. -/
def format (s : Settings) (file : Path) (text : String) : Invocation :=
  .ofSettings s (formatArguments file) file.directory? (some text)

end Invocation

end LintHost.Analyzer
