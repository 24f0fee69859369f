/-
LintHost/Proofs/Document/Rows.lean

Which line a diagnostic names.  The analyzer counts the rows of the prepared text, where
the hidden rows stand first and every row behind them shows a line of the user's text,
in its place (`rows_prepare`).  Its marks are 1-based and those of a diagnostic are
0-based, so that a diagnostic starts one row and the hidden rows further up.

Main results: a finding on a row of the prepared text is dropped exactly on a hidden
row, and otherwise names the line that the analyzer has read there
(`start_row_names_line`); so does every diagnostic that linting a document reports
(`run_lint_names_lines`).
-/
import LintHost.Proofs.Document.Agreement
import LintHost.Proofs.Masking.Lines

namespace LintHost

open Text

namespace Masking

/-- The rows of a text. -/
def rows (text : String) : List (List Char) := splitOn '\n' text.toList

/-- Whether a row is the line itself, or the line with the sign in front of its first
character that is no blank. -/
def Shows (sent line : List Char) : Prop := sent = line ∨ Marked line sent

theorem rows_placeholders (masked : List Char) :
    ∃ row, rows (placeholders ++ String.ofList masked) = row :: splitOn '\n' masked := by
  let row := "_ = 0 ; __ = 0 ; ___ = 0".toList
  have hp : placeholders.toList = row ++ ['\n'] := by decide
  have hrow : '\n' ∉ row := by decide
  refine ⟨row, ?_⟩
  rw [rows, String.toList_append, String.toList_ofList, hp, List.append_assoc]
  show splitOn '\n' (row ++ '\n' :: masked) = _
  rw [splitOn_append_cons, splitOn_of_not_mem hrow]
  rfl

/-- **The rows of a prepared text**: the hidden ones, then one that shows each line of the text. -/
theorem rows_prepare (text : String) (allowMagic : Bool) :
    ∃ front shown, rows (prepare text allowMagic).text = front ++ shown ∧
      front.length = (prepare text allowMagic).hidden.toNat ∧
        List.Forall₂ (fun line sent => Shows sent line) (rows text) shown := by
  cases allowMagic with
  | false => exact ⟨[], rows text, rfl, rfl, List.forall₂_same.2 fun _ _ => .inl rfl⟩
  | true =>
    obtain ⟨row, hrows⟩ := rows_placeholders (mask text.toList)
    exact ⟨[row], _, hrows, rfl, (forall₂_mask text.toList).imp fun _ _ h => h.eq_or_marked⟩

/-- A row behind the hidden ones shows the line in its place. -/
theorem exists_line_of_row (text : String) (allowMagic : Bool) {row : Nat}
    (hidden : (prepare text allowMagic).hidden.toNat ≤ row)
    (hrow : row < (rows (prepare text allowMagic).text).length) :
    ∃ line sent, (rows text)[row - (prepare text allowMagic).hidden.toNat]? = some line ∧
      (rows (prepare text allowMagic).text)[row]? = some sent ∧ Shows sent line := by
  obtain ⟨front, shown, hrows, hfront, hshown⟩ := rows_prepare text allowMagic
  rw [hrows, List.length_append, hfront] at hrow
  have hplace : row - (prepare text allowMagic).hidden.toNat < shown.length := by omega
  obtain ⟨line, sent, hline, hsent, h⟩ := exists_getElem?_of_forall₂ hshown hplace
  refine ⟨line, sent, hline, ?_, h⟩
  rw [hrows, List.getElem?_append_right (by omega), hfront]
  exact hsent

end Masking

open Masking

namespace Finding

/-- Whether a diagnostic starts on the line of a text that its finding's row of the sent text
shows. -/
def NamesLine (text sent : String) (f : Finding) (d : Diagnostic) : Prop :=
  d.span.start.row.toNat < (rows text).length ∧
    ∃ line row, (rows text)[d.span.start.row.toNat]? = some line ∧
      (rows sent)[f.start.row.toNat - 1]? = some row ∧ Shows row line

theorem namesLine_of_toDiagnostic? {text : String} {allowMagic : Bool} {policy : Policy}
    {file : Path} {f : Finding} {d : Diagnostic}
    (hrow : f.start.row.toNat ≤ (rows (prepare text allowMagic).text).length)
    (h : f.toDiagnostic? policy file (prepare text allowMagic).hidden = some d) :
    f.NamesLine text (prepare text allowMagic).text d := by
  have hstart := (points_of_toDiagnostic? h).startRow
  have hhidden : (prepare text allowMagic).hidden.toNat ≤ f.start.row.toNat - 1 := by omega
  obtain ⟨line, sent, hline, hsent, hshows⟩ := exists_line_of_row text allowMagic hhidden (by omega)
  have hplace : f.start.row.toNat - 1 - (prepare text allowMagic).hidden.toNat
      = d.span.start.row.toNat := by omega
  rw [hplace] at hline
  exact ⟨(List.getElem?_eq_some_iff.1 hline).1, line, sent, hline, hsent, hshows⟩

end Finding

open Finding in
/-- **A diagnostic names the line that the analyzer has read.**  A finding on a row of the prepared
text is dropped exactly on a hidden row.  Otherwise its diagnostic starts on a line of the text,
and the finding's row of the prepared text is that line, or that line with the sign in front of its
first character that is no blank. -/
theorem start_row_names_line (text : String) (allowMagic : Bool) (policy : Policy) (file : Path)
    (f : Finding) (hrow : f.start.row.toNat ≤ (rows (prepare text allowMagic).text).length) :
    let prepared := prepare text allowMagic
    (f.toDiagnostic? policy file prepared.hidden = none ↔ f.start.row ≤ prepared.hidden) ∧
      ∀ d, f.toDiagnostic? policy file prepared.hidden = some d →
        f.NamesLine text prepared.text d := by
  intro prepared
  refine ⟨toDiagnostic?_eq_none_iff, fun d h => ?_⟩
  exact namesLine_of_toDiagnostic? hrow h

open Finding in
/-- A help request below a command: its match takes in the blank lines around it. -/
theorem start_row_names_line_of_blank_lines :
    let text := "%time a\n\n  np?\n\nb"
    let prepared := prepare text true
    let f : Finding := { code := some "E501", message := "m", start := ⟨4, 5⟩, stop := ⟨5, 1⟩ }
    let d : Diagnostic := ⟨.error, some "E501", "E501 — m", ⟨"a.py"⟩, ⟨⟨2, 4⟩, ⟨3, 0⟩⟩⟩
    f.start.row.toNat ≤ (rows prepared.text).length ∧
      (rows prepared.text)[3]? = some "  # np?".toList ∧
      f.toDiagnostic? {} ⟨"a.py"⟩ prepared.hidden = some d ∧
      f.NamesLine text prepared.text d := by
  intro text prepared f d
  have hrow : f.start.row.toNat ≤ (rows prepared.text).length := by decide +kernel
  have hd : f.toDiagnostic? {} ⟨"a.py"⟩ prepared.hidden = some d := by decide +kernel
  obtain ⟨-, h⟩ := start_row_names_line text true {} ⟨"a.py"⟩ f hrow
  exact ⟨hrow, by decide +kernel, hd, h d hd⟩

namespace Document

open Analyzer Finding

/-- **Everything that linting reports names a line of the document**, if the analyzer reports on
rows of the text that it has been given. -/
theorem run_lint_names_lines {settings : Settings} {d : Document}
    (hl : d.isLinted settings = true) {σ : Type} (analyzer : σ → Invocation → Reply × σ)
    (start : σ) {output : String} {found : List Finding} :
    let prepared := prepare d.text settings.allowMagic
    let call := Invocation.checkText settings d.path prepared.text false
    (analyzer start call).1 = .ok output → Report.decode output.toList = .ok found →
    (∀ f ∈ found, f.start.row.toNat ≤ (rows prepared.text).length) →
    call.input = some prepared.text ∧ ∃ ds,
      (d.lint settings .report).run analyzer start
        = ((.ok (.diagnostics ds), d), [call], (analyzer start call).2) ∧
      ∀ diagnostic ∈ ds, ∃ f ∈ found, f.NamesLine d.text prepared.text diagnostic := by
  intro prepared call hreply hfound hrows
  let ds := found.filterMap (toDiagnostic? settings.policy d.path prepared.hidden)
  have hds : diagnosticsOf settings d.path prepared.hidden output = .ok ds := by
    rw [diagnosticsOf, hfound]
  refine ⟨rfl, ds, ?_, ?_⟩
  · rw [run_lint_of_reply hl analyzer start hreply, hds]
    rfl
  · intro diagnostic hmem
    obtain ⟨f, hf, h⟩ := List.mem_filterMap.1 hmem
    exact ⟨f, hf, namesLine_of_toDiagnostic? (hrows f hf) h⟩

end Document

end LintHost
