/-
LintHost/Proofs/Text/Terminators.lean

Lines with their terminators, put in a row and cut again.  No piece of a cut text has a
terminator anywhere but at its end (`isLine_of_mem_terminatedLines`); and such a piece is
cut off again from what follows it, unless a carriage return at its end meets a line feed
(`terminatedLines_append`).
-/
import LintHost.Text.Lines

namespace LintHost.Text

/-- What a line may end with. -/
def terminators : List (List Char) := [['\n'], ['\r', '\n'], ['\r']]

/-- Whether characters have no terminator among them. -/
def IsBody (s : List Char) : Prop :=
  '\n' ∉ s ∧ '\r' ∉ s

theorem isBody_nil : IsBody [] := ⟨List.not_mem_nil, List.not_mem_nil⟩

theorem isBody_cons {c : Char} {s : List Char} (hn : c ≠ '\n') (hr : c ≠ '\r') (h : IsBody s) :
    IsBody (c :: s) :=
  ⟨List.not_mem_cons_of_ne_of_not_mem hn.symm h.1, List.not_mem_cons_of_ne_of_not_mem hr.symm h.2⟩

/-- Whether a piece is a line: it has no terminator but at its end, and there one or none. -/
inductive IsLine : List Char → Prop
  | ended {body ending : List Char} (hbody : IsBody body) (hending : ending ∈ terminators) :
      IsLine (body ++ ending)
  | unended {body : List Char} (hbody : IsBody body) : IsLine body

theorem IsLine.cons {c : Char} {line : List Char} (hn : c ≠ '\n') (hr : c ≠ '\r')
    (h : IsLine line) : IsLine (c :: line) := by
  cases h with
  | ended hbody hending => exact .ended (isBody_cons hn hr hbody) hending
  | unended hbody => exact .unended (isBody_cons hn hr hbody)

theorem terminatedLines_cons {c : Char} (hn : c ≠ '\n') (hr : c ≠ '\r') (rest : List Char) :
    terminatedLines (c :: rest) = consFirst c (terminatedLines rest) := by
  rw [terminatedLines]
  · exact fun h => hn h
  · exact fun _ h => absurd h hr
  · exact fun h => hr h

/-- A text is cut into lines. -/
theorem isLine_of_mem_terminatedLines {s line : List Char} (h : line ∈ terminatedLines s) :
    IsLine line := by
  have hending : ∀ ending ∈ terminators, IsLine ending := fun _ => .ended isBody_nil
  fun_induction terminatedLines s generalizing line with
  | case1 => cases h
  | case2 rest ih =>
    rcases List.mem_cons.1 h with rfl | h
    · exact hending _ (by decide)
    · exact ih h
  | case3 rest ih =>
    rcases List.mem_cons.1 h with rfl | h
    · exact hending _ (by decide)
    · exact ih h
  | case4 rest _ ih =>
    rcases List.mem_cons.1 h with rfl | h
    · exact hending _ (by decide)
    · exact ih h
  | case5 c rest hn _ hr ih =>
    cases hrest : terminatedLines rest with
    | nil =>
      rw [hrest, consFirst, List.mem_singleton] at h
      rw [h]
      exact .unended (isBody_cons hn hr isBody_nil)
    | cons first lines =>
      rw [hrest] at h ih
      rcases List.mem_cons.1 h with rfl | h
      · exact (ih List.mem_cons_self).cons hn hr
      · exact ih (List.mem_cons_of_mem _ h)

/-- **A line is cut off** from what follows it. -/
theorem terminatedLines_append {body ending rest : List Char} (hbody : IsBody body)
    (hending : ending ∈ terminators) (hrest : rest.head? ≠ some '\n') :
    terminatedLines (body ++ ending ++ rest) = (body ++ ending) :: terminatedLines rest := by
  induction body with
  | nil =>
    simp only [terminators, List.mem_cons, List.not_mem_nil, or_false] at hending
    rcases hending with rfl | rfl | rfl
    · rfl
    · rfl
    · show terminatedLines ('\r' :: rest) = ['\r'] :: terminatedLines rest
      rw [terminatedLines]
      rintro _ rfl
      exact hrest rfl
  | cons c body ih =>
    obtain ⟨hn, hr⟩ := hbody
    rw [List.mem_cons, not_or] at hn hr
    rw [List.cons_append, List.cons_append, terminatedLines_cons (Ne.symm hn.1) (Ne.symm hr.1),
      ih ⟨hn.2, hr.2⟩]
    rfl

end LintHost.Text
