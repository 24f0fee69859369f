/-
LintHost/Proofs/Finding/Positions.lean

Where a diagnostic points.  A finding that is kept stands below the hidden rows, so that
one more than their number still is a word and is taken off its row without a rest; from
the other coordinates as much is taken off as there is.  This is what `Points` says of the
four coordinates in numbers, whatever words they are (`points_of_toDiagnostic?`).  A finding
that names no rule points to the first column of its row.

Main results: the shown row is the finding's own less the hidden ones, and nothing on the
way to it overflows (`translation_exact`); and positions come in the order of the marks that
they are made from (`translation_ordered`).
-/
import LintHost.Finding.Basic
import Mathlib.Data.Prod.Lex

namespace LintHost

/-- Marks are ordered by row, those of one row by column. -/
instance : LE Mark :=
  ⟨fun a b => toLex (a.row, a.column) ≤ toLex (b.row, b.column)⟩

/-- Positions are ordered by row, those of one row by column. -/
instance : LE Position :=
  ⟨fun a b => toLex (a.row, a.column) ≤ toLex (b.row, b.column)⟩

theorem Mark.le_iff {a b : Mark} : a ≤ b ↔
    a.row.toNat < b.row.toNat ∨ a.row.toNat = b.row.toNat ∧ a.column.toNat ≤ b.column.toNat := by
  rw [UInt32.toNat_inj, ← UInt32.lt_iff_toNat_lt, ← UInt32.le_iff_toNat_le]
  exact Prod.Lex.toLex_le_toLex

theorem Position.le_iff {a b : Position} : a ≤ b ↔
    a.row.toNat < b.row.toNat ∨ a.row.toNat = b.row.toNat ∧ a.column.toNat ≤ b.column.toNat := by
  rw [UInt32.toNat_inj, ← UInt32.lt_iff_toNat_lt, ← UInt32.le_iff_toNat_le]
  exact Prod.Lex.toLex_le_toLex

namespace Finding

theorem toNat_add_of_fits {a b : UInt32} (h : a.toNat + b.toNat < UInt32.size) :
    (a + b).toNat = a.toNat + b.toNat := by
  rw [UInt32.toNat_add]
  exact Nat.mod_eq_of_lt h

/-- Whether a finding names a rule: it has a code, and not that of input that could not be
parsed. -/
def NamesRule (f : Finding) : Prop :=
  f.code ≠ none ∧ f.code ≠ some unparseable

instance (f : Finding) : Decidable f.NamesRule :=
  inferInstanceAs (Decidable (_ ∧ _))

/-- A finding that names no rule is put at the first column. -/
theorem column_verdict (policy : Policy) (f : Finding) :
    (f.verdict policy).column = if f.NamesRule then f.start.column else 1 := by
  unfold verdict NamesRule
  split
  · next h => simp [h]
  · next code h =>
    by_cases hcode : code = unparseable
    · simp [h, hcode]
    · simp only [h, hcode]
      cases policy.cascade.classify code <;> simp [hcode]

/-- Where the diagnostic of a finding points, in numbers. -/
structure Points (hidden : UInt32) (f : Finding) (d : Diagnostic) : Prop where
  offset : (1 + hidden).toNat = 1 + hidden.toNat
  startRow : d.span.start.row.toNat + 1 + hidden.toNat = f.start.row.toNat
  startColumn : d.span.start.column.toNat = if f.NamesRule then f.start.column.toNat - 1 else 0
  stopRow : d.span.stop.row.toNat = f.stop.row.toNat - (1 + hidden.toNat)
  stopColumn : d.span.stop.column.toNat = f.stop.column.toNat - 1

variable {policy : Policy} {file : Path} {hidden : UInt32} {f : Finding} {d : Diagnostic}

/-- A row below the hidden ones leaves room for one more than their number. -/
theorem toNat_one_add_of_lt {row : UInt32} (h : hidden.toNat < row.toNat) :
    (1 + hidden).toNat = 1 + hidden.toNat := by
  have hrow := row.toNat_lt_size
  exact toNat_add_of_fits (show 1 + hidden.toNat < UInt32.size by omega)

/-- **Where a diagnostic points**, whatever the coordinates of its finding. -/
theorem points_of_toDiagnostic? (h : f.toDiagnostic? policy file hidden = some d) :
    f.Points hidden d := by
  unfold toDiagnostic? at h
  split at h
  · cases h
  · next hrow =>
    rw [UInt32.le_iff_toNat_le, Nat.not_le] at hrow
    have hoffset := toNat_one_add_of_lt hrow
    rw [← Option.some.inj h]
    refine ⟨hoffset, ?_, ?_, ?_, ?_⟩ <;> dsimp only <;> rw [toNat_monus]
    · omega
    · rw [column_verdict]
      split <;> rfl
    · rw [hoffset]
    · rfl

/-- A finding below the hidden rows is kept. -/
theorem exists_of_lt (policy : Policy) (file : Path) (h : hidden < f.start.row) :
    ∃ d, f.toDiagnostic? policy file hidden = some d := by
  refine Option.ne_none_iff_exists'.1 fun hnone => ?_
  exact UInt32.not_le.2 h (toDiagnostic?_eq_none_iff.1 hnone)

/-- What is shown for a kept finding, but for where it points. -/
theorem shown_of_toDiagnostic? (h : f.toDiagnostic? policy file hidden = some d) :
    d.file = file ∧ d.severity = (f.verdict policy).severity ∧
      d.message = shownMessage (f.verdict policy).code f.message := by
  unfold toDiagnostic? at h
  split at h
  · cases h
  · rw [← Option.some.inj h]
    exact ⟨rfl, rfl, rfl⟩

/-- No coordinate is the greatest word. -/
theorem Points.lt_max (h : f.Points hidden d) :
    d.span.start.row.toNat < UInt32.size - 1 ∧ d.span.start.column.toNat < UInt32.size - 1 ∧
      d.span.stop.row.toNat < UInt32.size - 1 ∧ d.span.stop.column.toNat < UInt32.size - 1 := by
  have hsize : 1 < UInt32.size := by decide
  have below (word : UInt32) (k : Nat) : word.toNat - (1 + k) < UInt32.size - 1 := by
    have hword := word.toNat_lt_size
    omega
  have hrow : d.span.start.row.toNat = f.start.row.toNat - (1 + hidden.toNat) := by
    have hstart := h.startRow
    omega
  refine ⟨hrow ▸ below _ _, ?_, h.stopRow ▸ below _ _, h.stopColumn ▸ below _ 0⟩
  rw [h.startColumn]
  split
  · exact below _ 0
  · omega

/-- The line that shows a diagnostic counts from one and leaves the hidden rows out. -/
theorem line_of_toDiagnostic? (h : f.toDiagnostic? policy file hidden = some d) :
    d.line = file.text ++ ":" ++ toString (f.start.row.toNat - hidden.toNat)
      ++ ":" ++ toString (if f.NamesRule then max f.start.column.toNat 1 else 1)
      ++ ": " ++ (f.verdict policy).severity.label
      ++ ": " ++ shownMessage (f.verdict policy).code f.message := by
  have points := points_of_toDiagnostic? h
  obtain ⟨hrowMax, hcolumnMax, -, -⟩ := points.lt_max
  obtain ⟨hfile, hseverity, hmessage⟩ := shown_of_toDiagnostic? h
  have hrow : d.span.start.row.toNat + 1 = f.start.row.toNat - hidden.toNat := by
    have hstart := points.startRow
    omega
  have hcolumn : d.span.start.column.toNat + 1
      = if f.NamesRule then max f.start.column.toNat 1 else 1 := by
    rw [points.startColumn]
    split <;> omega
  rw [Diagnostic.line_eq (by omega) (by omega), hrow, hcolumn, hfile, hseverity, hmessage]

/-! ### What translation comes to -/

/-- **Translation is exact.**  A finding is dropped exactly if its row is hidden.  Otherwise the
offset of its row is a word that is taken off without a rest, no coordinate is the greatest word,
and the line that shows the diagnostic has the finding's row less the hidden ones, and its column,
the first one if the finding has none or names no rule. -/
theorem translation_exact (policy : Policy) (file : Path) (hidden : UInt32) (f : Finding) :
    (f.toDiagnostic? policy file hidden = none ↔ f.start.row ≤ hidden) ∧
      (hidden < f.start.row → ∃ d, f.toDiagnostic? policy file hidden = some d ∧
        (1 + hidden).toNat = 1 + hidden.toNat ∧
        d.span.start.row.toNat + 1 + hidden.toNat = f.start.row.toNat ∧
        (d.span.start.row.toNat < UInt32.size - 1 ∧ d.span.start.column.toNat < UInt32.size - 1 ∧
          d.span.stop.row.toNat < UInt32.size - 1 ∧ d.span.stop.column.toNat < UInt32.size - 1) ∧
        (d.span.start.row + 1).toNat = d.span.start.row.toNat + 1 ∧
        (d.span.start.column + 1).toNat = d.span.start.column.toNat + 1 ∧
        d.line = file.text ++ ":" ++ toString (f.start.row.toNat - hidden.toNat)
          ++ ":" ++ toString (if f.NamesRule then max f.start.column.toNat 1 else 1)
          ++ ": " ++ (f.verdict policy).severity.label
          ++ ": " ++ shownMessage (f.verdict policy).code f.message) := by
  refine ⟨toDiagnostic?_eq_none_iff, fun hrow => ?_⟩
  obtain ⟨d, h⟩ := exists_of_lt policy file hrow
  have points := points_of_toDiagnostic? h
  obtain ⟨hrowMax, hcolumnMax, -, -⟩ := points.lt_max
  have succ {word : UInt32} (hword : word.toNat < UInt32.size - 1) :
      (word + 1).toNat = word.toNat + 1 :=
    toNat_add_of_fits (show word.toNat + 1 < UInt32.size by omega)
  exact ⟨d, h, points.offset, points.startRow, points.lt_max, succ hrowMax, succ hcolumnMax,
    line_of_toDiagnostic? h⟩

/-- As many hidden rows as there can be in front of a row, and the greatest words behind it. -/
theorem translation_exact_of_greatest :
    let hidden : UInt32 := 4294967294
    let f : Finding :=
      { code := some "W1", message := "m", start := ⟨4294967295, 4294967295⟩, stop := ⟨0, 0⟩ }
    hidden < f.start.row ∧ ∃ d, f.toDiagnostic? {} ⟨"a.py"⟩ hidden = some d ∧
      d.span = ⟨⟨0, 4294967294⟩, ⟨0, 0⟩⟩ ∧ d.line = "a.py:1:4294967295: warning: W1 — m" := by
  intro hidden f
  have hrow : hidden < f.start.row := by decide
  obtain ⟨d, h, -, -, -, -, -, hline⟩ := (translation_exact {} ⟨"a.py"⟩ hidden f).2 hrow
  have hd : f.toDiagnostic? {} ⟨"a.py"⟩ hidden
      = some ⟨.warning, some "W1", "W1 — m", ⟨"a.py"⟩, ⟨⟨0, 4294967294⟩, ⟨0, 0⟩⟩⟩ := by
    decide +kernel
  refine ⟨hrow, d, h, ?_, ?_⟩
  · rw [Option.some.inj (h.symm.trans hd)]
  · rw [hline]
    decide +kernel

/-- **Translation keeps positions in order.**  A diagnostic stops no earlier than it starts if its
finding does so.  Of two findings that name a rule, the one that is marked no later starts no
later; and a finding that stands no further down than a dropped one is dropped. -/
theorem translation_ordered (policy : Policy) (hidden : UInt32) :
    (∀ file f d, toDiagnostic? policy file hidden f = some d →
      f.start ≤ f.stop → d.span.start ≤ d.span.stop) ∧
    (∀ file other f g d e, f.NamesRule → g.NamesRule →
      toDiagnostic? policy file hidden f = some d → toDiagnostic? policy other hidden g = some e →
      f.start ≤ g.start → d.span.start ≤ e.span.start) ∧
    ∀ file other f g, g.start.row ≤ f.start.row →
      toDiagnostic? policy file hidden f = none → toDiagnostic? policy other hidden g = none := by
  refine ⟨?_, ?_, ?_⟩
  · intro file f d h hle
    have points := points_of_toDiagnostic? h
    have hstartRow := points.startRow
    have hstartColumn : d.span.start.column.toNat ≤ f.start.column.toNat - 1 := by
      rw [points.startColumn]
      split <;> omega
    -- the start row is behind the hidden ones and the stop row no earlier: neither is clamped
    rw [Mark.le_iff] at hle
    rw [Position.le_iff, points.stopRow, points.stopColumn]
    omega
  · intro file other f g d e hf hg hd he hle
    have points := points_of_toDiagnostic? hd
    have others := points_of_toDiagnostic? he
    have hstartRow := points.startRow
    have hotherRow := others.startRow
    rw [Mark.le_iff] at hle
    rw [Position.le_iff, points.startColumn, others.startColumn, if_pos hf, if_pos hg]
    omega
  · intro file other f g hle hf
    rw [toDiagnostic?_eq_none_iff] at hf ⊢
    exact UInt32.le_trans hle hf

/-- A finding without a code, two with columns before the first one, and one on a hidden row. -/
theorem translation_ordered_of_columns :
    let file : Path := ⟨"a.py"⟩
    let broken : Finding := { message := "m", start := ⟨3, 7⟩, stop := ⟨3, 9⟩ }
    let upper : Finding := { code := some "W1", message := "m", start := ⟨3, 0⟩, stop := ⟨1, 1⟩ }
    let lower : Finding :=
      { code := some "X1", message := "m", start := ⟨3, 4294967295⟩, stop := ⟨0, 0⟩ }
    let hidden : Finding := { message := "m", start := ⟨2, 5⟩, stop := ⟨4, 1⟩ }
    (∃ d, toDiagnostic? {} file 2 broken = some d ∧ broken.start ≤ broken.stop ∧
      d.span.start ≤ d.span.stop) ∧
    (∃ d e, upper.NamesRule ∧ lower.NamesRule ∧ toDiagnostic? {} file 2 upper = some d ∧
      toDiagnostic? {} file 2 lower = some e ∧ upper.start ≤ lower.start ∧
      d.span.start ≤ e.span.start) ∧
    toDiagnostic? {} file 2 hidden = none ∧
      toDiagnostic? {} file 2 { hidden with start := ⟨0, 1⟩ } = none := by
  intro file broken upper lower hidden
  obtain ⟨within, between, dropped⟩ := translation_ordered {} 2
  obtain ⟨d, hbroken⟩ := exists_of_lt {} file (show 2 < broken.start.row by decide)
  obtain ⟨u, hupper⟩ := exists_of_lt {} file (show 2 < upper.start.row by decide)
  obtain ⟨l, hlower⟩ := exists_of_lt {} file (show 2 < lower.start.row by decide)
  have hb : broken.start ≤ broken.stop := Mark.le_iff.2 (by decide)
  have hul : upper.start ≤ lower.start := Mark.le_iff.2 (by decide)
  have hh : toDiagnostic? {} file 2 hidden = none := rfl
  exact ⟨⟨d, hbroken, hb, within file broken d hbroken hb⟩,
    ⟨u, l, by decide, by decide, hupper, hlower, hul,
      between file file upper lower u l (by decide) (by decide) hupper hlower hul⟩,
    hh, dropped file file hidden _ (by decide) hh⟩

end Finding

end LintHost
