/-
LintHost/Diff/Unified.lean

Differences between two texts in unified form.  Lines end at a line feed, a carriage
return, or both.  Three lines are shown around each change, and changes less than
seven lines apart share a hunk.  A line without its end is followed by a remark.
Main fact: the difference of a text and itself is empty.
-/
import LintHost.Diff.Compaction
import LintHost.Diff.Search
import LintHost.Text.Lines

namespace LintHost.Diff

/-! ### Hunks -/

/-- The number of kept lines shown around a change. -/
def radius : Nat := 3

/-- An edit that keeps the last lines of a stretch only. -/
def lastLines (e : Edit) : Edit :=
  let dropped := e.newCount - radius
  .keep (e.old + dropped) (e.new + dropped) (e.newCount - dropped)

/-- An edit that keeps the first lines of a stretch only. -/
def firstLines (e : Edit) : Edit :=
  .keep e.old e.new (min e.newCount radius)

/-- The row with what is kept at its start cut to what is shown. -/
def trimStart : List Edit → List Edit
  | e :: es => if e.isKeep then lastLines e :: es else e :: es
  | [] => []

/-- The row with what is kept at its end cut to what is shown. -/
def trimEnd (es : List Edit) : List Edit :=
  match es.getLast? with
  | some e => if e.isKeep then es.dropLast ++ [firstLines e] else es
  | none => es

/-- The hunks of a row; `open` are the edits of the hunk begun so far. -/
def splitHunks : (hunk : List Edit) → List Edit → List (List Edit)
  | hunk, [] => if hunk.all Edit.isKeep then [] else [hunk]
  | hunk, e :: es =>
    if e.isKeep ∧ 2 * radius < e.newCount then
      (hunk ++ [firstLines e]) :: splitHunks [lastLines e] es
    else splitHunks (hunk ++ [e]) es

/-- The edits of each hunk. -/
def hunks (es : List Edit) : List (List Edit) :=
  splitHunks [] (trimEnd (trimStart es))

/-! ### Text -/

/-- A line. -/
abbrev TextLine := List Char

/-- Where a hunk starts on one side, counted from one, and how many lines it has there.  A
count of one is not written. -/
def rangeText (start stop : Nat) : String :=
  if stop - start = 1 then toString (start + 1)
  else if stop - start = 0 then toString start ++ ",0"
  else toString (start + 1) ++ "," ++ toString (stop - start)

/-- The line that opens a hunk. -/
def hunkTitle (first last : Edit) : String :=
  "@@ -" ++ rangeText first.old (last.old + last.oldCount)
    ++ " +" ++ rangeText first.new (last.new + last.newCount) ++ " @@\n"

/-- Whether a line has an end. -/
def isEnded (line : TextLine) : Bool :=
  line.getLast? == some '\n' || line.getLast? == some '\r'

/-- A line behind its sign. -/
def signedLine (sign : Char) (line : TextLine) : List Char :=
  sign :: line ++ if isEnded line then [] else "\n\\ No newline at end of file\n".toList

/-- The lines of an edit. -/
def editText (old new : List TextLine) (e : Edit) : List Char :=
  let signed (sign : Char) (lines : List TextLine) := lines.flatMap (signedLine sign)
  match e.kind with
  | .keep => signed ' ' (stretch old e.old e.oldCount)
  | .delete => signed '-' (stretch old e.old e.oldCount)
  | .insert => signed '+' (stretch new e.new e.newCount)
  | .replace =>
    signed '-' (stretch old e.old e.oldCount) ++ signed '+' (stretch new e.new e.newCount)

/-- The lines of a hunk. -/
def hunkText (old new : List TextLine) (hunk : List Edit) : List Char :=
  match hunk.head?, hunk.getLast? with
  | some first, some last =>
    (hunkTitle first last).toList ++ hunk.flatMap (editText old new)
  | _, _ => []

/-- The difference of two texts, under the names of their two sides; nothing if there is
none. -/
def unified (name old new : String) : String :=
  let a := Text.terminatedLines old.toList
  let b := Text.terminatedLines new.toList
  match hunks (compact b (edits a b)) with
  | [] => ""
  | shown =>
    "--- a/" ++ name ++ "\n+++ b/" ++ name ++ "\n"
      ++ String.ofList (shown.flatMap (hunkText a b))

end LintHost.Diff
