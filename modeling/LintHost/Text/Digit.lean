/-
LintHost/Text/Digit.lean

Digits and the numbers they write, in base ten and in the other bases up to 16.
Main facts: a row of decimal digits writes the number that the library reads from it
(`ofDigits_eq`), and nothing else writes a decimal number (`ofDecimal?_eq_some_iff`).
-/

namespace LintHost.Text

/-- The value of a decimal digit. -/
def digitValue (c : Char) : Nat :=
  c.toNat - '0'.toNat

/-- The number written by a row of decimal digits. -/
def ofDigits (digits : List Char) : Nat :=
  digits.foldl (fun n c => n * 10 + digitValue c) 0

/-- The value of a hexadecimal digit, in either case. -/
def hexValue? (c : Char) : Option Nat :=
  if c.isDigit then some (digitValue c)
  else if 'a' ≤ c ∧ c ≤ 'f' then some (c.toNat - 'a'.toNat + 10)
  else if 'A' ≤ c ∧ c ≤ 'F' then some (c.toNat - 'A'.toNat + 10)
  else none

/-- The value of a digit in a base of at most 16. -/
def digitValue? (base : Nat) (c : Char) : Option Nat :=
  (hexValue? c).filter (· < base)

/-- The number written by a non-empty row of digits in a base of at most 16. -/
def ofBase? (base : Nat) (digits : List Char) : Option Nat :=
  if digits = [] then none
  else digits.foldlM (fun n c => (digitValue? base c).map (n * base + ·)) 0

/-- The number written by a non-empty row of decimal digits. -/
def ofDecimal? (digits : List Char) : Option Nat :=
  if digits ≠ [] ∧ digits.all Char.isDigit then some (ofDigits digits) else none

theorem ofDigits_eq (digits : List Char) : ofDigits digits = Nat.ofDigitChars 10 digits 0 := by
  unfold ofDigits Nat.ofDigitChars digitValue
  congr 1
  funext n c
  rw [Nat.mul_comm]

theorem ofDecimal?_eq_some_iff {digits : List Char} {n : Nat} : ofDecimal? digits = some n ↔
    digits ≠ [] ∧ (∀ c ∈ digits, c.isDigit) ∧ Nat.ofDigitChars 10 digits 0 = n := by
  rw [ofDecimal?, ofDigits_eq]
  simp [and_assoc]

end LintHost.Text
