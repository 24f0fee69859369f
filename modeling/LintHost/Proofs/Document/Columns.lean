/-
LintHost/Proofs/Document/Columns.lean

Which character a diagnostic points at.  Masking puts the sign into some lines, and every
character behind it stands two columns further to the right than in the user's line
(`sourceColumn?`): a masked line shows every character of the line once, and shows
nothing else but the sign (`getElem?_sourceColumn?`, `existsUnique_shown`).  A diagnostic
starts in the column that the finding has in the prepared text, which takes no sign into
account.

Main result: the start of a diagnostic is the character that the analyzer has reported
on exactly if no sign stands before it on its line, and else it lies two columns too far
to the right (`start_column_shows_character`), as it does for a finding on a help request
(`help_request_is_shown_two_columns_on`).
-/
import LintHost.Proofs.Document.Rows
import LintHost.Proofs.Finding.Positions
import LintHost.Proofs.Masking.LineByLine

namespace LintHost

open Text

namespace Masking

/-! ### Where the sign stands -/

/-- How many characters of a line stand before the sign that masking puts into it. -/
def signAt? (l : List Char) : Option Nat :=
  if l.head? = some '%' then some 0
  else if isHelpLine l then some (l.takeWhile isBlank).length
  else none

/-- A masked line is the line itself, or its parts before and behind the sign around it. -/
theorem maskLine_eq (l : List Char) : maskLine l =
    match signAt? l with
    | none => l
    | some front => l.take front ++ commentSign ++ l.drop front := by
  unfold maskLine signAt?
  by_cases hcommand : l.head? = some '%'
  · rw [if_pos hcommand, if_pos hcommand]
    rfl
  · rw [if_neg hcommand, if_neg hcommand]
    by_cases hhelp : isHelpLine l = true
    · rw [if_pos hhelp, if_pos hhelp]
      have hsplit := List.takeWhile_append_dropWhile (p := isBlank) (l := l)
      have htake : l.take (l.takeWhile isBlank).length = l.takeWhile isBlank := by
        conv_lhs => rw [← hsplit]
        rw [List.take_left' (by rw [hsplit])]
      have hdrop : l.drop (l.takeWhile isBlank).length = l.dropWhile isBlank := by
        conv_lhs => rw [← hsplit]
        rw [List.drop_left' (by rw [hsplit])]
      dsimp only
      rw [htake, hdrop]
    · rw [if_neg hhelp, if_neg hhelp]

/-- The sign stands inside the line. -/
theorem le_length_of_signAt? {l : List Char} {front : Nat} (h : signAt? l = some front) :
    front ≤ l.length := by
  unfold signAt? at h
  split at h
  · cases h
    exact Nat.zero_le _
  · split at h
    · cases h
      exact (List.takeWhile_prefix isBlank).length_le
    · cases h

/-! ### Which character stands in a column -/

/-- The column that the character in a column of a masked line has in the line; none for the
columns of the sign. -/
def sourceColumn? (l : List Char) (column : Nat) : Option Nat :=
  match signAt? l with
  | none => some column
  | some front =>
    if column < front then some column
    else if column < front + commentSign.length then none
    else some (column - commentSign.length)

theorem sourceColumn?_of_unsigned {l : List Char} (h : signAt? l = none) (column : Nat) :
    sourceColumn? l column = some column := by
  simp only [sourceColumn?, h]

theorem sourceColumn?_of_sign {l : List Char} {front : Nat} (h : signAt? l = some front)
    (column : Nat) : sourceColumn? l column =
      if column < front then some column
      else if column < front + commentSign.length then none
      else some (column - commentSign.length) := by
  simp only [sourceColumn?, h]

/-- Whether the sign stands before the character in a column of the line. -/
def SignBefore (l : List Char) (column : Nat) : Prop :=
  ∃ front, signAt? l = some front ∧ front ≤ column

theorem signBefore_iff {l : List Char} {front : Nat} (h : signAt? l = some front) (column : Nat) :
    SignBefore l column ↔ front ≤ column := by
  refine ⟨fun ⟨other, hother, hle⟩ => ?_, fun hle => ⟨front, h, hle⟩⟩
  obtain rfl : front = other := Option.some.inj (h.symm.trans hother)
  exact hle

theorem not_signBefore {l : List Char} (h : signAt? l = none) (column : Nat) :
    ¬SignBefore l column := by
  rintro ⟨front, hfront, -⟩
  rw [h] at hfront
  cases hfront

/-- Behind the sign a character stands as many columns further to the right as the sign has. -/
theorem eq_of_sourceColumn? {l : List Char} {column source : Nat}
    (h : sourceColumn? l column = some source) :
    (¬SignBefore l source ∧ column = source) ∨
      (SignBefore l source ∧ column = source + commentSign.length) := by
  cases hsign : signAt? l with
  | none =>
    rw [sourceColumn?_of_unsigned hsign] at h
    exact .inl ⟨not_signBefore hsign source, Option.some.inj h⟩
  | some front =>
    rw [signBefore_iff hsign]
    rw [sourceColumn?_of_sign hsign] at h
    split at h
    · next hlt =>
      obtain rfl := Option.some.inj h
      exact .inl ⟨Nat.not_le.2 hlt, rfl⟩
    · split at h
      · cases h
      · obtain rfl := Option.some.inj h
        exact .inr ⟨by omega, by omega⟩

/-- The character in a column of a masked line is the one in the line that it is said to be. -/
theorem getElem?_sourceColumn? {l : List Char} {column source : Nat}
    (h : sourceColumn? l column = some source) :
    (maskLine l)[column]? = l[source]? := by
  rw [maskLine_eq]
  rcases eq_of_sourceColumn? h with ⟨hno, rfl⟩ | ⟨⟨front, hfront, hle⟩, rfl⟩
  · cases hfront : signAt? l with
    | none => rfl
    | some front =>
      -- the column is one of those before the sign
      have hlt : column < front := Nat.not_le.1 fun hle => hno ⟨front, hfront, hle⟩
      have hlen := le_length_of_signAt? hfront
      dsimp only
      rw [List.append_assoc, List.getElem?_append_left (by rw [List.length_take]; omega),
        List.getElem?_take_of_lt hlt]
  · -- the column is behind the sign
    have hlen := le_length_of_signAt? hfront
    have hbefore : (l.take front ++ commentSign).length = front + commentSign.length := by
      rw [List.length_append, List.length_take_of_le hlen]
    rw [hfront]
    dsimp only
    rw [List.getElem?_append_right (by omega), hbefore, List.getElem?_drop]
    congr 1
    omega

/-- Every character of a line is shown by one column of the masked line. -/
theorem existsUnique_shown (l : List Char) (source : Nat) :
    ∃! column, sourceColumn? l column = some source := by
  by_cases hsign : SignBefore l source
  · refine ⟨source + commentSign.length, ?_, fun column h => ?_⟩
    · obtain ⟨front, hfront, hle⟩ := hsign
      show sourceColumn? l (source + commentSign.length) = some source
      rw [sourceColumn?_of_sign hfront, if_neg (by omega), if_neg (by omega), Nat.add_sub_cancel]
    · obtain ⟨hno, -⟩ | ⟨-, heq⟩ := eq_of_sourceColumn? h
      · exact absurd hsign hno
      · exact heq
  · refine ⟨source, ?_, fun column h => ?_⟩
    · show sourceColumn? l source = some source
      cases hfront : signAt? l with
      | none => exact sourceColumn?_of_unsigned hfront source
      | some front =>
        have hlt : source < front := Nat.not_le.1 fun hle => hsign ⟨front, hfront, hle⟩
        rw [sourceColumn?_of_sign hfront, if_pos hlt]
    · obtain ⟨-, heq⟩ | ⟨hyes, -⟩ := eq_of_sourceColumn? h
      · exact heq
      · exact absurd hyes hsign

/-! ### The rows of a masked text -/

/-- Behind the row of placeholders stand the masked lines. -/
theorem rows_prepare_true (text : String) : ∃ row,
    rows (prepare text true).text = row :: (rows text).map maskLine := by
  obtain ⟨row, h⟩ := rows_placeholders (mask text.toList)
  exact ⟨row, h.trans (by rw [splitOn_mask]; rfl)⟩

end Masking

open Masking

/-- A row of the prepared text below the placeholders is the masked form of the line in its
place. -/
theorem exists_masked_line {text : String} {row : Nat} {sent : List Char} (hrow : 1 < row)
    (h : (rows (prepare text true).text)[row - 1]? = some sent) :
    ∃ l, (rows text)[row - 2]? = some l ∧ maskLine l = sent := by
  obtain ⟨first, hrows⟩ := rows_prepare_true text
  have hplace : row - 1 = row - 2 + 1 := by omega
  rwa [hrows, hplace, List.getElem?_cons_succ, List.getElem?_map, Option.map_eq_some_iff] at h

namespace Finding

variable {policy : Policy} {file : Path} {f : Finding} {d : Diagnostic}

/-- A finding that names a rule and marks a character of a line becomes a diagnostic that starts in
the character's column, or two columns further to the right if the sign stands before it. -/
theorem startColumn_of_sourceColumn? {l : List Char} {column : Nat} {hidden : UInt32}
    (hrule : f.NamesRule) (hd : f.toDiagnostic? policy file hidden = some d)
    (h : sourceColumn? l (f.start.column.toNat - 1) = some column) :
    (d.span.start.column.toNat = column ↔ ¬SignBefore l column) ∧
      (SignBefore l column → d.span.start.column.toNat = column + 2) := by
  have hcolumn := (points_of_toDiagnostic? hd).startColumn
  rw [if_pos hrule] at hcolumn
  have hsign : commentSign.length = 2 := rfl
  obtain ⟨hno, heq⟩ | ⟨hyes, heq⟩ := eq_of_sourceColumn? h
  · exact ⟨⟨fun _ => hno, fun _ => hcolumn.trans heq⟩, fun hyes => absurd hyes hno⟩
  · have hshifted : d.span.start.column.toNat = column + 2 := by rw [hcolumn, heq, hsign]
    exact ⟨⟨fun _ => by omega, fun hno => absurd hyes hno⟩, fun _ => hshifted⟩

end Finding

open Finding in
/-- **Where a diagnostic starts that is about a character.**  Let a finding that names a rule mark a
character of a row of the prepared text that is not hidden.  The row is the masked form of a line,
and shows each of its characters once.  If the marked character is none of the sign's, the
diagnostic starts on the line: at that character exactly if the sign does not stand before it, and
else two columns too far to the right. -/
theorem start_column_shows_character (text : String) (policy : Policy) (file : Path) (f : Finding)
    (sent : List Char) (hrule : f.NamesRule) (hrow : (prepare text true).hidden < f.start.row)
    (hsent : (rows (prepare text true).text)[f.start.row.toNat - 1]? = some sent)
    (hcolumn : 1 ≤ f.start.column.toNat) (hinside : f.start.column.toNat ≤ sent.length) :
    ∃ l, (rows text)[f.start.row.toNat - 2]? = some l ∧ maskLine l = sent ∧
      (∀ column, ∃! shown, sourceColumn? l shown = some column) ∧
      ∀ column, sourceColumn? l (f.start.column.toNat - 1) = some column →
        column < l.length ∧ l[column]? = sent[f.start.column.toNat - 1]? ∧
        ∃ d, f.toDiagnostic? policy file (prepare text true).hidden = some d ∧
          (rows text)[d.span.start.row.toNat]? = some l ∧
          (d.span.start.column.toNat = column ↔ ¬SignBefore l column) ∧
          (SignBefore l column → d.span.start.column.toNat = column + 2) := by
  have hbelow : 1 < f.start.row.toNat := UInt32.lt_iff_toNat_lt.1 hrow
  obtain ⟨l, hline, rfl⟩ := exists_masked_line hbelow hsent
  refine ⟨l, hline, rfl, existsUnique_shown l, fun column h => ?_⟩
  have hchar := getElem?_sourceColumn? h
  -- the row has a character there, and the line has the same one
  have hthere : f.start.column.toNat - 1 < (maskLine l).length := by omega
  obtain ⟨d, hd⟩ := exists_of_lt policy file hrow
  have hplace : d.span.start.row.toNat = f.start.row.toNat - 2 := by
    have hhidden : (prepare text true).hidden.toNat = 1 := rfl
    have hstart := (points_of_toDiagnostic? hd).startRow
    omega
  refine ⟨?_, hchar.symm, d, hd, ?_, startColumn_of_sourceColumn? hrule hd h⟩
  · rw [List.getElem?_eq_getElem hthere] at hchar
    exact (List.getElem?_eq_some_iff.1 hchar.symm).1
  · rw [hplace, hline]

open Finding in
/-- A character in front of the sign, and one behind it on the same line. -/
theorem start_column_shows_character_of_both :
    let text := "x = 1\n  np?\n"
    let line := "  np?".toList
    let sent := "  # np?".toList
    let before : Finding := { code := some "W291", message := "m", start := ⟨3, 2⟩, stop := ⟨3, 3⟩ }
    let behind : Finding := { code := some "E501", message := "m", start := ⟨3, 5⟩, stop := ⟨3, 8⟩ }
    before.NamesRule ∧ behind.NamesRule ∧ (prepare text true).hidden < before.start.row ∧
      (prepare text true).hidden < behind.start.row ∧
      (rows (prepare text true).text)[2]? = some sent ∧ 5 ≤ sent.length ∧
      (∃ d, before.toDiagnostic? {} ⟨"a.py"⟩ (prepare text true).hidden = some d ∧
        (d.span.start.column.toNat = 1 ↔ ¬SignBefore line 1)) ∧
      ∃ d, behind.toDiagnostic? {} ⟨"a.py"⟩ (prepare text true).hidden = some d ∧
        (SignBefore line 2 → d.span.start.column.toNat = 4) := by
  intro text line sent before behind
  have hbefore : (prepare text true).hidden < before.start.row := by decide
  have hbehind : (prepare text true).hidden < behind.start.row := by decide
  have hsent : (rows (prepare text true).text)[2]? = some sent := by decide +kernel
  obtain ⟨l, hl, -, -, hleft⟩ :=
    start_column_shows_character text {} ⟨"a.py"⟩ before sent (by decide) hbefore hsent
      (by decide) (by decide)
  obtain ⟨r, hr, -, -, hright⟩ :=
    start_column_shows_character text {} ⟨"a.py"⟩ behind sent (by decide) hbehind hsent
      (by decide) (by decide)
  -- both findings are about the one line that the row shows
  have hline : (rows text)[1]? = some line := by decide +kernel
  obtain rfl : l = line := Option.some.inj (hl.symm.trans hline)
  obtain rfl : r = line := Option.some.inj (hr.symm.trans hline)
  obtain ⟨-, -, d, hd, -, hstart, -⟩ := hleft 1 (by decide +kernel)
  obtain ⟨-, -, e, he, -, -, hshifted⟩ := hright 2 (by decide +kernel)
  exact ⟨by decide, by decide, hbefore, hbehind, hsent, by decide, ⟨d, hd, hstart⟩, e, he, hshifted⟩

open Finding in
/-- The diagnostic about the first character of a line starts at the third one: the line is a help
request, and the finding is about the character in its masked form. -/
theorem help_request_is_shown_two_columns_on :
    let text := "np?"
    let f : Finding := { code := some "E501", message := "m", start := ⟨2, 3⟩, stop := ⟨2, 6⟩ }
    (rows (prepare text true).text)[1]? = some "# np?".toList ∧
      sourceColumn? "np?".toList 2 = some 0 ∧
      (f.toDiagnostic? {} ⟨"a.py"⟩ (prepare text true).hidden).map (·.span.start)
        = some ⟨0, 2⟩ := by
  decide +kernel

end LintHost
