/-
LintHost/Finding/Report.lean

Decoding the analyzer's report.  The report is a JSON list of findings, or an
object whose values are findings and are taken in the order of their names.  A
finding is an object whose unknown members are ignored, or a list of its five
fields in order; a mark likewise.  Blank output is a report without findings.
The first value is read before its shape is looked at, and its shape before what
follows it.
-/
import LintHost.Finding.Basic
import LintHost.Json.Reader
import LintHost.Text.Classes

namespace LintHost

/-- Why a text is not a report. -/
inductive ReportFault where
  /-- It is not JSON. -/
  | text (fault : Json.Fault)
  /-- It is JSON, but not a list or an object of findings. -/
  | shape
  deriving DecidableEq, Repr

namespace Report

open Json

/-! ### Fields -/

/-- A coordinate: a natural number that is a 32-bit word. -/
def word? : Value → Option UInt32
  | .number n => do
    let k ← n.natural?
    if k < UInt32.size then some (UInt32.ofNat k) else none
  | _ => none

/-- A text. -/
def string? : Value → Option String
  | .string s => some s
  | _ => none

/-- A text that may be null. -/
def optional? : Value → Option (Option String)
  | .null => some none
  | v => (string? v).map some

/-- The member with a given name, with a value in place of a missing one; none if it is
repeated. -/
def member? (missing : Option Value) (name : String) (members : List (String × Value)) :
    Option Value :=
  match membersNamed name members with
  | [] => missing
  | [v] => some v
  | _ => none

/-- The single member with a given name; none if it is missing or repeated. -/
def required? : String → List (String × Value) → Option Value :=
  member? none

/-- The member with a given name, null if it is missing; none if it is repeated. -/
def defaulted? : String → List (String × Value) → Option Value :=
  member? (some .null)

/-! ### Findings -/

/-- A mark, as an object or as a list of row and column. -/
def mark? : Value → Option Mark
  | .object members => do
    return ⟨← word? (← required? "row" members), ← word? (← required? "column" members)⟩
  | .array [row, column] => do return ⟨← word? row, ← word? column⟩
  | _ => none

/-- A finding, as an object or as a list of its fields. -/
def finding? : Value → Option Finding
  | .object members => do
    return {
      filename := ← optional? (← defaulted? "filename" members)
      code := ← optional? (← defaulted? "code" members)
      message := ← string? (← required? "message" members)
      start := ← mark? (← required? "location" members)
      stop := ← mark? (← required? "end_location" members) }
  | .array [filename, code, message, start, stop] => do
    return {
      filename := ← optional? filename
      code := ← optional? code
      message := ← string? message
      start := ← mark? start
      stop := ← mark? stop }
  | _ => none

/-- Puts a named finding into its place by name; one with the same name is replaced. -/
def insertNamed (name : String) (f : Finding) : List (String × Finding) → List (String × Finding)
  | [] => [(name, f)]
  | (n, g) :: rest =>
    if n < name then (n, g) :: insertNamed name f rest
    else if n = name then (name, f) :: rest
    else (name, f) :: (n, g) :: rest

/-- The findings of an object's members in the order of their names, the last of a name
counting. -/
def byName (named : List (String × Finding)) : List Finding :=
  (named.foldl (fun sorted m => insertNamed m.1 m.2 sorted) []).map (·.2)

/-- The findings of a value, if it has the shape of a report. -/
def findings? : Value → Option (List Finding)
  | .array items => items.mapM finding?
  | .object members => do
    return byName (← members.mapM fun m => do return (m.1, ← finding? m.2))
  | _ => none

/-! ### Decoding -/

/-- The findings of a report's text. -/
def decode (output : List Char) : Except ReportFault (List Finding) :=
  match Text.trim output with
  | [] => .ok []
  | s =>
    match readFirst s with
    | .error fault => .error (.text fault)
    | .ok (value, rest) =>
      match findings? value with
      | none => .error .shape
      | some found => if (skipSpace rest).isEmpty then .ok found else .error (.text .malformed)

end Report

end LintHost
