/-
LintHost/Proofs/Text/Trimming.lean

What trimming takes off.  A text is the blanks at its start, the trimmed text and the
blanks at its end (`exists_eq_append_trim`).  Of a word without blanks nothing is taken,
whatever blanks stand around it (`trim_of_word`).
-/
import LintHost.Text.Classes
import Mathlib.Data.List.TakeWhile

namespace LintHost.Text

/-- A text is the blanks at its start, the trimmed text and the blanks at its end. -/
theorem exists_eq_append_trim (s : List Char) :
    ∃ trail, s = s.takeWhile isBlank ++ trim s ++ trail ∧ ∀ c ∈ trail, isBlank c = true := by
  refine ⟨((trimLeft s).reverse.takeWhile isBlank).reverse, ?_, ?_⟩
  · have hr : trimRight (trimLeft s) ++ ((trimLeft s).reverse.takeWhile isBlank).reverse
        = trimLeft s := by
      rw [trimRight, ← List.reverse_append, List.takeWhile_append_dropWhile, List.reverse_reverse]
    rw [trim, List.append_assoc, hr, trimLeft, List.takeWhile_append_dropWhile]
  · intro c hc
    exact List.mem_takeWhile_imp (List.mem_reverse.1 hc)

/-- Blanks around a word that has none in it are trimmed off, and nothing else is. -/
theorem trim_of_word {lead word trail : List Char} (hl : ∀ c ∈ lead, isBlank c = true)
    (hne : word ≠ []) (hw : ∀ c ∈ word, isBlank c = false) (ht : ∀ c ∈ trail, isBlank c = true) :
    trim (lead ++ word ++ trail) = word := by
  have stops : ∀ {w : List Char} (rest : List Char), w ≠ [] → (∀ c ∈ w, isBlank c = false) →
      (w ++ rest).dropWhile isBlank = w ++ rest := by
    intro w rest hne hw
    cases w with
    | nil => exact absurd rfl hne
    | cons c w =>
      rw [List.cons_append, List.dropWhile_cons_of_neg]
      simp [hw c List.mem_cons_self]
  have hleft : trimLeft (lead ++ word ++ trail) = word ++ trail := by
    rw [trimLeft, List.append_assoc, List.dropWhile_append_of_pos hl, stops trail hne hw]
  have hback : ∀ c ∈ trail.reverse, isBlank c = true := fun c hc => ht c (List.mem_reverse.1 hc)
  rw [trim, hleft, trimRight, List.reverse_append, List.dropWhile_append_of_pos hback]
  have hrest := stops (w := word.reverse) [] (by simpa using hne)
    fun c hc => hw c (List.mem_reverse.1 hc)
  rw [List.append_nil] at hrest
  rw [hrest, List.reverse_reverse]

end LintHost.Text
