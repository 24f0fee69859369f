/-
LintHost/Document/Lint.lean

Documents, and linting one from its text.  A document is a text under the name of a file,
which need not be what the file holds.  Nothing is asked of the analyzer if linting is
switched off or the document is no Python source.  To report, the analyzer gets the
prepared text and its findings become diagnostics for the document.  To fix, it
gets the text as it is and its output becomes the text.
-/
import LintHost.Analyzer.Consult
import LintHost.Masking

namespace LintHost

open Analyzer

/-- A text under the name of a file. -/
structure Document where
  path : Path
  text : String
  deriving DecidableEq, Repr, Inhabited

namespace Document

/-- What linting is to do. -/
inductive Mode where
  | report
  | fix
  deriving DecidableEq, Repr, Inhabited

/-- What linting has done. -/
inductive Linted where
  | diagnostics (ds : List Diagnostic)
  | fixed
  deriving DecidableEq, Repr, Inhabited

/-- Whether the analyzer is asked about a document. -/
def isLinted (s : Settings) (d : Document) : Bool :=
  s.enabled && d.path.isPython

/-- The diagnostics that the analyzer's output gives for a document. -/
def diagnosticsOf (s : Settings) (file : Path) (hidden : UInt32) (output : String) :
    Except Failure (List Diagnostic) :=
  match Report.decode output.toList with
  | .error fault => .error (.report fault)
  | .ok found => .ok (found.filterMap (Finding.toDiagnostic? s.policy file hidden))

/-- Reports the diagnostics of a document. -/
def report (s : Settings) (d : Document) : Consult (Except Failure (List Diagnostic)) := do
  if !d.isLinted s then return .ok []
  let prepared := Masking.prepare d.text s.allowMagic
  match ← Consult.reply (.checkText s d.path prepared.text false) with
  | .error failure => return .error failure
  | .ok output => return diagnosticsOf s d.path prepared.hidden output

/-- The fixed text of a document; none if it is not linted. -/
def fixedText (s : Settings) (d : Document) : Consult (Except Failure (Option String)) := do
  if !d.isLinted s then return .ok none
  match ← Consult.reply (.checkText s d.path d.text true) with
  | .error failure => return .error failure
  | .ok output => return .ok (some output)

/-- What a report comes to. -/
def reported : Except Failure (List Diagnostic) → Except Failure Linted
  | .error failure => .error failure
  | .ok ds => .ok (.diagnostics ds)

/-- What a fix comes to, and the document after it. -/
def fixed (d : Document) : Except Failure (Option String) → Except Failure Linted × Document
  | .error failure => (.error failure, d)
  | .ok none => (.ok (.diagnostics []), d)
  | .ok (some text) => (.ok .fixed, { d with text })

/-- Lints a document, and returns it as it is afterwards. -/
def lint (s : Settings) (mode : Mode) (d : Document) :
    Consult (Except Failure Linted × Document) :=
  match mode with
  | .report => (d.report s).bind fun r => .done (reported r, d)
  | .fix => (d.fixedText s).bind fun r => .done (d.fixed r)

end Document

end LintHost
