/-
LintHost/Diagnostic.lean

Classified diagnostics with 0-based positions, and the line that shows one.
Rows and columns are 32-bit words, as the analyzer counts them.  Main fact: the
shown row and column are one more than the stored ones as long as neither is the
greatest word (`line_eq`).
-/
import LintHost.Path.Basic
import LintHost.Severity

namespace LintHost

/-- A 0-based row and column. -/
structure Position where
  row : UInt32
  column : UInt32
  deriving DecidableEq, Repr, Inhabited

/-- The stretch of text from `start` up to `stop`. -/
structure Span where
  start : Position
  stop : Position
  deriving DecidableEq, Repr, Inhabited

/-- One classified finding about a file. -/
structure Diagnostic where
  severity : Severity
  code : Option String
  message : String
  file : Path
  span : Span
  deriving DecidableEq, Repr, Inhabited

namespace Diagnostic

/-- The line that shows a diagnostic, with 1-based row and column. -/
def line (d : Diagnostic) : String :=
  d.file.text ++ ":" ++ toString (d.span.start.row + 1).toNat
    ++ ":" ++ toString (d.span.start.column + 1).toNat
    ++ ": " ++ d.severity.label ++ ": " ++ d.message

/-- Below the greatest word, the shown row and column are the successors of the stored ones. -/
theorem line_eq {d : Diagnostic} (hr : d.span.start.row.toNat + 1 < UInt32.size)
    (hc : d.span.start.column.toNat + 1 < UInt32.size) :
    d.line = d.file.text ++ ":" ++ toString (d.span.start.row.toNat + 1)
      ++ ":" ++ toString (d.span.start.column.toNat + 1)
      ++ ": " ++ d.severity.label ++ ": " ++ d.message := by
  rw [UInt32.size] at hr hc
  have row : (d.span.start.row + 1).toNat = d.span.start.row.toNat + 1 := by
    simp only [UInt32.toNat_add, UInt32.reduceToNat]; omega
  have column : (d.span.start.column + 1).toNat = d.span.start.column.toNat + 1 := by
    simp only [UInt32.toNat_add, UInt32.reduceToNat]; omega
  rw [line, row, column]

end Diagnostic

end LintHost
