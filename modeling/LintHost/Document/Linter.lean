/-
LintHost/Document/Linter.lean

Linters: the settings under which documents are linted, and beside them the policy that the
settings make, which is worked out once and not for every finding.  Whoever changes the
settings has to change the policy as well.
Main facts: a linter that is freshly made lints as its settings say (`lint_ofSettings`).
-/
import LintHost.Document.Lint

namespace LintHost.Document

open Analyzer

/-- What lints documents. -/
structure Linter where
  settings : Settings
  /-- How findings are classified: the policy of the settings. -/
  policy : Policy
  deriving DecidableEq, Repr

namespace Linter

/-- A linter with given settings. -/
def ofSettings (s : Settings) : Linter where
  settings := s
  policy := s.policy

/-- Takes other settings. -/
def configure (l : Linter) (s : Settings) : Linter :=
  { { l with policy := s.policy } with settings := s }

/-- The diagnostics that the analyzer's output gives for a document. -/
def diagnosticsOf (l : Linter) (file : Path) (hidden : UInt32) (output : String) :
    Except Failure (List Diagnostic) :=
  match Report.decode output.toList with
  | .error fault => .error (.report fault)
  | .ok found => .ok (found.filterMap (Finding.toDiagnostic? l.policy file hidden))

/-- Reports the diagnostics of a document. -/
def report (l : Linter) (d : Document) : Consult (Except Failure (List Diagnostic)) := do
  if !d.isLinted l.settings then return .ok []
  let prepared := Masking.prepare d.text l.settings.allowMagic
  match ← Consult.reply (.checkText l.settings d.path prepared.text false) with
  | .error failure => return .error failure
  | .ok output => return l.diagnosticsOf d.path prepared.hidden output

/-- Lints a document, and returns it as it is afterwards. -/
def lint (l : Linter) (mode : Mode) (d : Document) : Consult (Except Failure Linted × Document) :=
  match mode with
  | .report => (l.report d).bind fun r => .done (reported r, d)
  | .fix => (d.fixedText l.settings).bind fun r => .done (d.fixed r)

/-- A linter that is freshly made lints as its settings say. -/
theorem lint_ofSettings (s : Settings) (mode : Mode) (d : Document) :
    (ofSettings s).lint mode d = d.lint s mode := by
  cases mode with
  | report => rfl
  | fix => rfl

end Linter

end LintHost.Document
