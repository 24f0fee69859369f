/-
LintHost/Proofs/Diff/Patch.lean

Differences as they are read.  A hunk is a title and rows, and each row is a line behind
its sign.  A reader that knows nothing of edits finds the hunks in a text (`readHunks?`)
and puts them to the lines of another one (`rewrite?`): what a hunk keeps and what it
takes away has to stand where its title says that it starts, and what it keeps and what
it adds takes the place of that.  The other three numbers of a title are not needed for
this; whether they are right as well is asked apart (`TitlesRight`).

Main result: what is shown of two texts is read as the hunks that it shows
(`readHunks?_hunkText`).
-/
import LintHost.Diff.Unified
import LintHost.Proofs.Diff.Hunks
import LintHost.Proofs.Text.Decimals
import LintHost.Proofs.Text.Terminators

namespace LintHost.Diff

/-! ### Hunks -/

/-- The lines of a text. -/
abbrev linesOf (s : String) : List TextLine :=
  Text.terminatedLines s.toList

/-- What a hunk does with a line. -/
inductive Sign where
  | kept
  | removed
  | added
  deriving DecidableEq, Repr

/-- How a sign is written. -/
def Sign.char : Sign → Char
  | kept => ' '
  | removed => '-'
  | added => '+'

/-- A line of a hunk, and what the hunk does with it. -/
abbrev Row := Sign × TextLine

/-- Where a hunk stands on both sides, counted from zero, and how many lines it has there. -/
structure Title where
  oldStart : Nat
  oldCount : Nat
  newStart : Nat
  newCount : Nat
  deriving DecidableEq, Repr

/-- A hunk. -/
structure Hunk where
  title : Title
  rows : List Row
  deriving DecidableEq, Repr

/-- The lines of the old text that rows show. -/
def oldLines (rows : List Row) : List TextLine :=
  (rows.filter (·.1 ≠ .added)).map (·.2)

/-- The lines of the new text that rows show. -/
def newLines (rows : List Row) : List TextLine :=
  (rows.filter (·.1 ≠ .removed)).map (·.2)

/-! ### Reading -/

/-- The sign that a character is. -/
def Sign.ofChar? : Char → Option Sign
  | ' ' => some kept
  | '-' => some removed
  | '+' => some added
  | _ => none

/-- One side of a title.  Without lines, it says behind which line it stands. -/
def readRange? (s : List Char) : Option (Nat × Nat) :=
  match Text.splitFirst? ',' s with
  | none => do
    let start ← Text.ofDecimal? s
    return (start - 1, 1)
  | some (start, count) => do
    let start ← Text.ofDecimal? start
    let count ← Text.ofDecimal? count
    return (if count = 0 then start else start - 1, count)

/-- A title. -/
def readTitle? : List Char → Option Title
  | '@' :: '@' :: ' ' :: '-' :: s => do
    let (old, s) ← Text.splitFirst? ' ' s
    let (new, s) ← Text.splitFirst? ' ' s
    match new with
    | '+' :: new =>
      if s = "@@\n".toList then
        let (oldStart, oldCount) ← readRange? old
        let (newStart, newCount) ← readRange? new
        return ⟨oldStart, oldCount, newStart, newCount⟩
      else none
    | _ => none
  | _ => none

/-- What has been read from some line on: whether it is remarked there that the line before has no
end, the rows up to the next title, and the hunks from that on. -/
structure Reading where
  remark : Bool := false
  rows : List Row := []
  hunks : List Hunk := []
  deriving DecidableEq, Repr

/-- Reads the line before. -/
def Reading.add? (r : Reading) : TextLine → Option Reading
  | '\\' :: _ => if r.remark then none else some { r with remark := true }
  | '@' :: title =>
    if r.remark then none
    else (readTitle? ('@' :: title)).map fun title => { hunks := ⟨title, r.rows⟩ :: r.hunks }
  | c :: line => (Sign.ofChar? c).map fun sign =>
    { r with remark := false, rows := (sign, if r.remark then line.dropLast else line) :: r.rows }
  | [] => none

/-- Reads lines. -/
def readLines? : List TextLine → Option Reading
  | [] => some {}
  | line :: lines => (readLines? lines).bind (·.add? line)

/-- The hunks that a text shows. -/
def readHunks? (s : List Char) : Option (List Hunk) :=
  (readLines? (Text.terminatedLines s)).bind fun r =>
    if r.remark ∨ r.rows ≠ [] then none else some r.hunks

/-- The header of a difference. -/
def header (name : String) : String :=
  "--- a/" ++ name ++ "\n+++ b/" ++ name ++ "\n"

/-- The hunks of a difference under the names of its two sides; none if nothing is shown. -/
def readUnified? (name difference : String) : Option (List Hunk) :=
  let header := (header name).toList
  if header <+: difference.toList then readHunks? (difference.toList.drop header.length) else none

/-! ### Rewriting -/

/-- What hunks make of the lines of a text from a place on. -/
def rewrite? (place : Nat) (lines : List TextLine) : List Hunk → Option (List TextLine)
  | [] => some lines
  | h :: hunks =>
    let n := h.title.oldStart - place
    let before := oldLines h.rows
    if place ≤ h.title.oldStart ∧ n ≤ lines.length ∧ before <+: lines.drop n then
      (rewrite? (h.title.oldStart + before.length) (lines.drop (n + before.length)) hunks).map
        (lines.take n ++ newLines h.rows ++ ·)
    else none

/-- Whether the titles of hunks say where these stand on the new side, and how many lines they have
on both sides. -/
def TitlesRight (oldPlace newPlace : Nat) : List Hunk → Prop
  | [] => True
  | h :: hunks =>
    h.title.oldCount = (oldLines h.rows).length ∧
      h.title.newStart = newPlace + (h.title.oldStart - oldPlace) ∧
      h.title.newCount = (newLines h.rows).length ∧
      TitlesRight (h.title.oldStart + h.title.oldCount) (h.title.newStart + h.title.newCount) hunks

instance decidableTitlesRight (i j : Nat) :
    (hunks : List Hunk) → Decidable (TitlesRight i j hunks)
  | [] => isTrue trivial
  | h :: hunks =>
    have := decidableTitlesRight (h.title.oldStart + h.title.oldCount)
      (h.title.newStart + h.title.newCount) hunks
    inferInstanceAs (Decidable (_ ∧ _ ∧ _ ∧ _))

/-- What a difference makes of a text, going by the first number of each title and the signs. -/
def patched? (name difference old : String) : Option String := do
  let hunks ← readUnified? name difference
  let lines ← rewrite? 0 (linesOf old) hunks
  return String.ofList lines.flatten

/-- What a difference makes of a text if all numbers of its titles are right. -/
def strictlyPatched? (name difference old : String) : Option String := do
  let hunks ← readUnified? name difference
  if TitlesRight 0 0 hunks then patched? name difference old else none

/-! ### Numbers -/

/-- A character that is in no number and no comma is not in a range. -/
theorem not_mem_rangeText {c : Char} (hc : c.isDigit = false) (hcomma : c ≠ ',')
    (start stop : Nat) : c ∉ (rangeText start stop).toList := by
  unfold rangeText
  split
  · exact Text.not_mem_toString hc _
  split
  · rw [String.toList_append, List.mem_append, not_or]
    refine ⟨Text.not_mem_toString hc _, ?_⟩
    rintro (_ | ⟨_, _ | ⟨_, h⟩⟩)
    · exact hcomma rfl
    · cases hc
    · cases h
  · rw [String.toList_append, String.toList_append, List.mem_append, List.mem_append, not_or,
      not_or]
    refine ⟨⟨Text.not_mem_toString hc _, ?_⟩, Text.not_mem_toString hc _⟩
    exact fun h => hcomma (List.mem_singleton.1 h)

theorem splitFirst?_of_not_mem {c : Char} {s : List Char} (h : c ∉ s) :
    Text.splitFirst? c s = none := by
  cases hs : Text.splitFirst? c s with
  | none => rfl
  | some parts =>
    obtain ⟨rfl, -⟩ := Text.splitFirst?_eq_some_iff.1 hs
    exact absurd (by simp) h

theorem readRange?_rangeText (start stop : Nat) :
    readRange? (rangeText start stop).toList = some (start, stop - start) := by
  unfold rangeText
  split
  · next h =>
    rw [readRange?, splitFirst?_of_not_mem (Text.not_mem_toString (by decide) _)]
    simp only [Text.ofDecimal?_toString, h]
    rfl
  split
  · next h =>
    have hsplit : Text.splitFirst? ',' (toString start ++ ",0").toList
        = some ((toString start).toList, ['0']) :=
      Text.splitFirst?_eq_some_iff.2 ⟨String.toList_append, Text.not_mem_toString (by decide) _⟩
    have hzero : Text.ofDecimal? ['0'] = some 0 := rfl
    simp only [readRange?, hsplit, Text.ofDecimal?_toString, hzero, h]
    rfl
  · next h =>
    have hsplit : Text.splitFirst? ','
          (toString (start + 1) ++ "," ++ toString (stop - start)).toList
        = some ((toString (start + 1)).toList, (toString (stop - start)).toList) := by
      refine Text.splitFirst?_eq_some_iff.2 ⟨?_, Text.not_mem_toString (by decide) _⟩
      rw [String.toList_append, String.toList_append, List.append_assoc]
      rfl
    simp only [readRange?, hsplit, Text.ofDecimal?_toString]
    simp [h]

/-! ### Titles -/

/-- Where a hunk stands by what its first and its last edit say. -/
def titleOf (first last : Edit) : Title where
  oldStart := first.old
  oldCount := last.old + last.oldCount - first.old
  newStart := first.new
  newCount := last.new + last.newCount - first.new

/-- The old side of a title. -/
def oldRange (first last : Edit) : List Char :=
  (rangeText first.old (last.old + last.oldCount)).toList

/-- The new side of a title. -/
def newRange (first last : Edit) : List Char :=
  (rangeText first.new (last.new + last.newCount)).toList

theorem toList_hunkTitle (first last : Edit) : (hunkTitle first last).toList
    = '@' :: '@' :: ' ' :: '-' ::
      (oldRange first last ++ ' ' :: ('+' :: newRange first last ++ ' ' :: "@@\n".toList)) := by
  simp [hunkTitle, oldRange, newRange, String.toList_append, List.append_assoc]

/-- **A title is read as it is shown.** -/
theorem readTitle?_hunkTitle (first last : Edit) :
    readTitle? (hunkTitle first last).toList = some (titleOf first last) := by
  have hspace : ∀ start stop, ' ' ∉ (rangeText start stop).toList := fun start stop =>
    not_mem_rangeText (by decide) (by decide) start stop
  have hold : Text.splitFirst? ' '
        (oldRange first last ++ ' ' :: ('+' :: newRange first last ++ ' ' :: "@@\n".toList))
      = some (_, _) :=
    Text.splitFirst?_eq_some_iff.2 ⟨rfl, hspace _ _⟩
  have hnew : Text.splitFirst? ' ' ('+' :: newRange first last ++ ' ' :: "@@\n".toList)
      = some (_, _) :=
    Text.splitFirst?_eq_some_iff.2 ⟨rfl, List.not_mem_cons_of_ne_of_not_mem (by decide) (hspace _ _)⟩
  have holds : readRange? (oldRange first last) = _ := readRange?_rangeText _ _
  have hnews : readRange? (newRange first last) = _ := readRange?_rangeText _ _
  rw [toList_hunkTitle]
  simp only [readTitle?, hold, Option.bind_eq_bind, Option.bind_some, hnew, if_true, holds, hnews]
  rfl

theorem terminatedLines_hunkTitle (first last : Edit) {rest : List Char}
    (hrest : rest.head? ≠ some '\n') :
    Text.terminatedLines ((hunkTitle first last).toList ++ rest)
      = (hunkTitle first last).toList :: Text.terminatedLines rest := by
  let body := '@' :: '@' :: ' ' :: '-' ::
    (oldRange first last ++ ' ' :: ('+' :: newRange first last ++ ' ' :: "@@".toList))
  have htitle : (hunkTitle first last).toList = body ++ ['\n'] := by
    rw [toList_hunkTitle]
    simp [body]
  have hfree : ∀ c : Char, c.isDigit = false → c ≠ ',' → c ∉ "@ -+".toList → c ∉ body := by
    intro c hc hcomma hother
    have hold : c ∉ oldRange first last := not_mem_rangeText hc hcomma _ _
    have hnew : c ∉ newRange first last := not_mem_rangeText hc hcomma _ _
    simp_all [body]
  rw [htitle]
  exact Text.terminatedLines_append ⟨hfree _ (by decide) (by decide) (by decide),
    hfree _ (by decide) (by decide) (by decide)⟩ (by decide) hrest

/-! ### Rows -/

/-- A row as it is shown. -/
def rowText (r : Row) : List Char :=
  signedLine r.1.char r.2

/-- The rows of an edit. -/
def editRows (old new : List TextLine) (e : Edit) : List Row :=
  let signed (sign : Sign) (lines : List TextLine) := lines.map fun line => (sign, line)
  match e.kind with
  | .keep => signed .kept (stretch old e.old e.oldCount)
  | .delete => signed .removed (stretch old e.old e.oldCount)
  | .insert => signed .added (stretch new e.new e.newCount)
  | .replace =>
    signed .removed (stretch old e.old e.oldCount) ++ signed .added (stretch new e.new e.newCount)

/-- The hunk that edits show. -/
def Hunk.ofEdits (old new : List TextLine) (hunk : List Edit) : Hunk where
  title := titleOf (hunk.head?.getD default) (hunk.getLast?.getD default)
  rows := hunk.flatMap (editRows old new)

variable {old new : List TextLine} {r : Reading} {rest : List Char}

theorem editText_eq (old new : List TextLine) (e : Edit) :
    editText old new e = (editRows old new e).flatMap rowText := by
  have hsigned : ∀ (sign : Sign) (lines : List TextLine), lines.flatMap (signedLine sign.char)
      = (lines.map fun line => (sign, line)).flatMap rowText := by
    intro sign lines
    rw [List.flatMap_map]
    rfl
  unfold editText editRows
  cases e.kind with
  | keep => exact hsigned .kept _
  | delete => exact hsigned .removed _
  | insert => exact hsigned .added _
  | replace =>
    dsimp only
    rw [List.flatMap_append, ← hsigned, ← hsigned]
    rfl

theorem hunkText_eq {hunk : List Edit} (hne : hunk ≠ []) :
    hunkText old new hunk
      = (hunkTitle (hunk.head?.getD default) (hunk.getLast?.getD default)).toList
        ++ (Hunk.ofEdits old new hunk).rows.flatMap rowText := by
  have htext : editText old new = fun e => (editRows old new e).flatMap rowText :=
    funext (editText_eq old new)
  rw [hunkText, List.head?_eq_some_head hne, List.getLast?_eq_some_getLast hne, Hunk.ofEdits,
    List.flatMap_assoc, htext]
  rfl

theorem mem_of_mem_stretch {α : Type} {s : List α} {start count : Nat} {a : α}
    (h : a ∈ stretch s start count) : a ∈ s :=
  List.mem_of_mem_drop (List.mem_of_mem_take h)

/-- The rows of an edit are lines of the two texts. -/
theorem mem_of_mem_editRows {e : Edit} {row : Row} (h : row ∈ editRows old new e) :
    row.2 ∈ old ∨ row.2 ∈ new := by
  unfold editRows at h
  have hsigned : ∀ {sign : Sign} {s : List TextLine} {start count : Nat},
      row ∈ (stretch s start count).map (fun line => (sign, line)) → row.2 ∈ s := by
    intro sign s start count h
    obtain ⟨line, hline, rfl⟩ := List.mem_map.1 h
    exact mem_of_mem_stretch hline
  cases hk : e.kind with
  | replace =>
    rw [hk] at h
    exact (List.mem_append.1 h).imp hsigned hsigned
  | insert =>
    rw [hk] at h
    exact .inr (hsigned h)
  | _ =>
    rw [hk] at h
    exact .inl (hsigned h)

theorem add?_row (r : Reading) (sign : Sign) (line : TextLine) :
    r.add? (sign.char :: line) = some { r with
      remark := false
      rows := (sign, if r.remark then line.dropLast else line) :: r.rows } := by
  cases sign <;> rfl

/-- A row is read as it is shown. -/
theorem readLines?_rowText {row : Row} (hline : Text.IsLine row.2)
    (hrest : rest.head? ≠ some '\n') (hr : r.remark = false)
    (h : readLines? (Text.terminatedLines rest) = some r) :
    readLines? (Text.terminatedLines (rowText row ++ rest))
      = some { r with rows := row :: r.rows } := by
  obtain ⟨sign, line⟩ := row
  have hline : Text.IsLine line := hline
  have hn : sign.char ≠ '\n' := by cases sign <;> decide
  have hr' : sign.char ≠ '\r' := by cases sign <;> decide
  cases hline with
  | @ended body ending hbody hending =>
    have hended : isEnded (body ++ ending) = true := by
      simp only [Text.terminators, List.mem_cons, List.not_mem_nil, or_false] at hending
      rcases hending with rfl | rfl | rfl <;> simp [isEnded]
    have hcut := Text.terminatedLines_append (Text.isBody_cons hn hr' hbody) hending hrest
    have htext : rowText (sign, body ++ ending) ++ rest = sign.char :: body ++ ending ++ rest := by
      simp [rowText, signedLine, hended]
    rw [htext, hcut, readLines?, h]
    show r.add? (sign.char :: (body ++ ending)) = _
    rw [add?_row, hr]
    rfl
  | unended hbody =>
    have hended : isEnded line = false := by
      rw [isEnded, Bool.or_eq_false_iff, beq_eq_false_iff_ne, beq_eq_false_iff_ne]
      exact ⟨fun h => hbody.1 (List.mem_of_getLast? h), fun h => hbody.2 (List.mem_of_getLast? h)⟩
    -- the row is printed as two lines, and the reader meets the second one first
    let remark := "\\ No newline at end of file".toList
    have htext : rowText (sign, line) ++ rest
        = sign.char :: line ++ ['\n'] ++ (remark ++ ['\n'] ++ rest) := by
      simp [rowText, signedLine, hended, remark]
    have hcut : Text.terminatedLines (remark ++ ['\n'] ++ rest) = _ :=
      Text.terminatedLines_append ⟨by decide, by decide⟩ (by decide) hrest
    have hnext : (remark ++ ['\n'] ++ rest).head? = some '\\' := rfl
    have hremark : r.add? (remark ++ ['\n']) = some { r with remark := true } := by
      show (if r.remark = true then none else _) = _
      rw [hr]
      rfl
    rw [htext, Text.terminatedLines_append (Text.isBody_cons hn hr' hbody) (by decide)
      (by rw [hnext]; decide), hcut, readLines?, readLines?, h, Option.bind_some, hremark,
      Option.bind_some]
    show Reading.add? _ (sign.char :: (line ++ ['\n'])) = _
    rw [add?_row, if_pos rfl, List.dropLast_concat]
    simp only [hr]

/-- No row begins with a line feed. -/
theorem head?_rows_ne (rows : List Row) (hrest : rest.head? ≠ some '\n') :
    (rows.flatMap rowText ++ rest).head? ≠ some '\n' := by
  cases rows with
  | nil => exact hrest
  | cons row rows =>
    intro h
    have hchar : row.1.char = '\n' := Option.some.inj h
    rcases row with ⟨_ | _ | _, _⟩ <;> cases hchar

/-- Rows are read as they are shown. -/
theorem readLines?_rows {rows : List Row} (hlines : ∀ row ∈ rows, Text.IsLine row.2)
    (hrest : rest.head? ≠ some '\n') (hr : r.remark = false)
    (h : readLines? (Text.terminatedLines rest) = some r) :
    readLines? (Text.terminatedLines (rows.flatMap rowText ++ rest))
      = some { r with rows := rows ++ r.rows } := by
  induction rows with
  | nil => exact h
  | cons row rows ih =>
    have hrows := ih fun row' hrow => hlines row' (List.mem_cons_of_mem _ hrow)
    rw [List.flatMap_cons, List.append_assoc]
    exact readLines?_rowText (hlines row List.mem_cons_self) (head?_rows_ne rows hrest)
      (r := { r with rows := rows ++ r.rows }) hr hrows

theorem add?_hunkTitle (hr : r.remark = false) (first last : Edit) :
    r.add? (hunkTitle first last).toList
      = some { hunks := ⟨titleOf first last, r.rows⟩ :: r.hunks } := by
  have htitle := readTitle?_hunkTitle first last
  rw [toList_hunkTitle] at htitle ⊢
  rw [Reading.add?, htitle, hr]
  rfl

/-! ### Whole differences -/

/-- **Hunks are read as they are shown.** -/
theorem readHunks?_hunkText (ho : ∀ line ∈ old, Text.IsLine line)
    (hn : ∀ line ∈ new, Text.IsLine line) {shown : List (List Edit)} (hne : ∀ h ∈ shown, h ≠ []) :
    readHunks? (shown.flatMap (hunkText old new)) = some (shown.map (Hunk.ofEdits old new)) := by
  suffices h : readLines? (Text.terminatedLines (shown.flatMap (hunkText old new)))
      = some { hunks := shown.map (Hunk.ofEdits old new) } by
    rw [readHunks?, h]
    rfl
  induction shown with
  | nil => rfl
  | cons hunk shown ih =>
    have ih := ih fun h hh => hne h (List.mem_cons_of_mem _ hh)
    have hrest : (shown.flatMap (hunkText old new)).head? ≠ some '\n' := by
      cases shown with
      | nil => simp
      | cons next shown =>
        rw [List.flatMap_cons, hunkText_eq (hne next (by simp)), toList_hunkTitle]
        exact fun h => absurd (Option.some.inj h) (by decide)
    have hlines : ∀ row ∈ (Hunk.ofEdits old new hunk).rows, Text.IsLine row.2 := by
      intro row hrow
      obtain ⟨e, -, he⟩ := List.mem_flatMap.1 hrow
      exact (mem_of_mem_editRows he).elim (ho _) (hn _)
    have hrows := readLines?_rows hlines hrest rfl ih
    rw [List.flatMap_cons, hunkText_eq (hne hunk List.mem_cons_self), List.append_assoc,
      terminatedLines_hunkTitle _ _ (head?_rows_ne _ hrest), readLines?, hrows, Option.bind_some,
      List.append_nil, add?_hunkTitle rfl]
    rfl

theorem unified_eq (name old new : String) :
    let shown := shownHunks (linesOf old) (linesOf new)
    unified name old new = if shown = [] then "" else
      header name ++ String.ofList (shown.flatMap (hunkText (linesOf old) (linesOf new))) := by
  intro shown
  have hshown : hunks (compact (linesOf new) (edits (linesOf old) (linesOf new))) = shown := rfl
  rw [unified, hshown]
  cases shown with
  | nil => rfl
  | cons => rfl

/-- **A difference is read as it is shown.** -/
theorem readUnified?_unified (name old new : String) :
    let shown := shownHunks (linesOf old) (linesOf new)
    shown ≠ [] → readUnified? name (unified name old new)
      = some (shown.map (Hunk.ofEdits (linesOf old) (linesOf new))) := by
  intro shown hshown
  have htext : (unified name old new).toList
      = (header name).toList ++ shown.flatMap (hunkText (linesOf old) (linesOf new)) := by
    rw [unified_eq, if_neg hshown, String.toList_append, String.toList_ofList]
  have hlines : ∀ s, ∀ line ∈ linesOf s, Text.IsLine line := fun _ _ h =>
    Text.isLine_of_mem_terminatedLines h
  rw [readUnified?, htext, if_pos (List.prefix_append _ _), List.drop_left]
  exact readHunks?_hunkText (hlines old) (hlines new) (spaced_shownHunks _ _).ne_nil

end LintHost.Diff
