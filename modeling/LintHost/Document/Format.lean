/-
LintHost/Document/Format.lean

Formatting a document, or some of its lines.  Lines end at line feeds.  The bytes of a
range of lines are found in one pass over the lines with a running offset.  What stands
there is formatted on its own and put back between what stands before and after it; lines
past the end are left out of it, and an empty selection asks nothing of the analyzer.  An
empty text is its own formatted form.
-/
import LintHost.Document.Lint
import LintHost.LineRange
import LintHost.Text.Utf8

namespace LintHost

open Analyzer

namespace LineRange

/-! ### The bytes of a range of lines -/

/-- One pass over the lines that are left.  It knows the number of the next one and the byte at
which that starts, and remembers where the range has started and the last line of it has stopped. -/
def pass (r : LineRange) (index offset : Nat) (start stop : Option Nat) :
    List (List Char) → Option Nat × Option Nat
  | [] => (start, stop)
  | line :: rest =>
    if r.last < index then (start, stop)
    else
      let behind := offset + (Text.encode line).length
      r.pass (index + 1) behind (if index = r.first then some offset else start) (some behind) rest

/-- The bytes of the lines of a range, from the first one up to the one behind the last. -/
def span? (r : LineRange) (text : List Char) : Option (Nat × Nat) :=
  match r.pass 0 0 none none (Text.newlineLines text) with
  | (some start, some stop) => if start < stop then some (start, stop) else none
  | _ => none

end LineRange

namespace Document

/-- The formatted form of a text under the name of a file. -/
def formatted (s : Settings) (file : Path) (text : String) : Consult Reply :=
  if text = "" then .done (.ok "") else .reply (.format s file text)

/-- The document with a new text, and whether that is another one. -/
def withText (d : Document) (text : String) : Bool × Document :=
  (text ≠ d.text, { d with text })

/-- Formats a document.  The result says whether its text has changed. -/
def format (s : Settings) (d : Document) : Consult (Except Failure Bool × Document) := do
  match ← formatted s d.path d.text with
  | .error failure => return (.error failure, d)
  | .ok text =>
    let (changed, d) := d.withText text
    return (.ok changed, d)

/-! ### Selections -/

/-- A text in three parts: what stands before some lines, the lines, and what stands after
them. -/
structure Selection where
  before : List Char
  lines : List Char
  after : List Char
  deriving DecidableEq, Repr

/-- The parts of a text before, between and after two of its bytes. -/
def Selection.ofSpan (span : Nat × Nat) (text : List Char) : Selection :=
  let (front, after) := Text.cutAt span.2 text
  let (before, lines) := Text.cutAt span.1 front
  ⟨before, lines, after⟩

/-- Formats some lines of a document.  The result says whether its text has changed. -/
def formatLines (s : Settings) (r : LineRange) (d : Document) :
    Consult (Except Failure Bool × Document) := do
  let some span := r.span? d.text.toList | return (.ok false, d)
  let parts := Selection.ofSpan span d.text.toList
  match ← formatted s d.path (String.ofList parts.lines) with
  | .error failure => return (.error failure, d)
  | .ok text =>
    if text = String.ofList parts.lines then return (.ok false, d)
    else return (.ok true,
      { d with text := String.ofList (parts.before ++ text.toList ++ parts.after) })

end Document

end LintHost
