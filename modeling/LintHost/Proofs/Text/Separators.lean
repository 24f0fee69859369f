/-
LintHost/Proofs/Text/Separators.lean

Cutting a text at a separator, piece by piece.  A text without the separator is its
own only part (`splitOn_of_not_mem`), no part holds the separator
(`not_mem_of_mem_splitOn`), and the parts of two texts with a separator between them
are those of the first followed by those of the second (`splitOn_append_cons`).
-/
import LintHost.Text.Lines

namespace LintHost.Text

variable {α : Type} [DecidableEq α]

omit [DecidableEq α] in
theorem consFirst_append {c : α} {pieces : List (List α)} (h : pieces ≠ [])
    (more : List (List α)) : consFirst c (pieces ++ more) = consFirst c pieces ++ more := by
  cases pieces with
  | nil => exact absurd rfl h
  | cons piece pieces => rfl

theorem splitOn_of_not_mem {sep : α} {s : List α} (h : sep ∉ s) : splitOn sep s = [s] := by
  induction s with
  | nil => rfl
  | cons c rest ih =>
    have hc : c ≠ sep := fun e => h (e ▸ List.mem_cons_self)
    have hr : sep ∉ rest := fun hm => h (List.mem_cons_of_mem _ hm)
    rw [splitOn, if_neg hc, ih hr]
    rfl

/-- No part holds the separator. -/
theorem not_mem_of_mem_splitOn {sep : α} {s part : List α} (h : part ∈ splitOn sep s) :
    sep ∉ part := by
  induction s generalizing part with
  | nil =>
    rw [splitOn, List.mem_singleton] at h
    simp [h]
  | cons c rest ih =>
    rw [splitOn] at h
    split at h
    · rcases List.mem_cons.1 h with rfl | h
      · exact List.not_mem_nil
      · exact ih h
    · next hc =>
      rcases e : splitOn sep rest with - | ⟨first, parts⟩
      · exact absurd e (splitOn_ne_nil sep rest)
      · rw [e] at h ih
        rcases List.mem_cons.1 h with rfl | h
        · have hf : sep ∉ first := ih List.mem_cons_self
          intro hm
          rcases List.mem_cons.1 hm with e | hm
          · exact hc e.symm
          · exact hf hm
        · exact ih (List.mem_cons_of_mem _ h)

/-- A separator between two texts keeps their parts apart. -/
theorem splitOn_append_cons (sep : α) (a b : List α) :
    splitOn sep (a ++ sep :: b) = splitOn sep a ++ splitOn sep b := by
  induction a with
  | nil => simp [splitOn]
  | cons c a ih =>
    rw [List.cons_append, splitOn, splitOn, ih]
    split
    · rfl
    · exact consFirst_append (splitOn_ne_nil sep a) _

end LintHost.Text
