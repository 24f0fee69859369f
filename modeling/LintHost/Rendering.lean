/-
LintHost/Rendering.lean

Diagnostics as text for people and as JSON for programs.  A list of diagnostics has
the members of each in the order in which they are declared; a scan, which has two
channels, has all members in the order of their names.  JSON holds texts only, so there
is none of diagnostics for a file whose path is no text; lines show such a path with
replacement characters.
-/
import LintHost.Board.Basic
import LintHost.Json.Printer

namespace LintHost.Rendering

open Json (Value)

/-- One line for each diagnostic. -/
def lines (ds : List Diagnostic) : String :=
  String.join (ds.map fun d => d.line ++ "\n")

/-- The JSON of a position. -/
def position (p : Position) : Value :=
  .object [("row", .ofNat p.row.toNat), ("column", .ofNat p.column.toNat)]

/-- The JSON of a diagnostic. -/
def diagnostic (d : Diagnostic) : Value :=
  .object [
    ("severity", .string d.severity.label),
    ("code", .ofOption d.code),
    ("message", .string d.message),
    ("file", .string d.file.text),
    ("range", .object [("start", position d.span.start), ("end", position d.span.stop)])]

/-- The JSON text of a list of diagnostics, each with what is shown for its file. -/
def json (ds : List Diagnostic) : String :=
  Json.print (.array (ds.map diagnostic))

/-- The JSON text of the two channels of a scan, each diagnostic with what is shown for its file. -/
def scanJson (project opened : Board) : String :=
  Json.print <| Json.sortMembers <| .object [
    ("project", .array (project.shown.map diagnostic)),
    ("open", .array (opened.shown.map diagnostic))]

/-- Whether all diagnostics are for files whose paths are texts. -/
def areTexts (ds : List Diagnostic) : Bool :=
  ds.all fun d => d.file.isText

/-- The JSON text of a list of diagnostics, if there is one. -/
def json? (ds : List Diagnostic) : Option String :=
  if areTexts ds then some (json ds) else none

/-- The JSON text of the two channels of a scan, if there is one. -/
def scanJson? (project opened : Board) : Option String :=
  if areTexts project.shown && areTexts opened.shown then some (scanJson project opened) else none

/-- The status of the channels that show something. -/
def statusLine (project opened : Board) : String :=
  let channels := [("project", project), ("open", opened)].filter fun c => c.2.entries ≠ []
  String.intercalate " | " (channels.map fun c => c.1 ++ " " ++ c.2.status)

end LintHost.Rendering
