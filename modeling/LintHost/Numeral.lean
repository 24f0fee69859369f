/-
LintHost/Numeral.lean

Decimal numerals as they are written: sign, digits before and after the point, and
exponent.  A numeral is kept apart from the number it denotes where only some ways
of writing a number count, and where the number may be too large for the 64-bit
binary format.  Whether it is can be asked of the number itself (`isFinite`), or of a
reading that rounds after every step (`staysFinite`).
-/
import LintHost.Text.Digit

namespace LintHost

/-- A decimal numeral: sign, digits before and after the point, and the exponent's sign and
digits. -/
structure Numeral where
  negative : Bool := false
  whole : List Char
  fraction : List Char := []
  exponent : Option (Bool × List Char) := none
  deriving DecidableEq, Repr, Inhabited

namespace Numeral

open Text (ofDigits)

/-- The number, if the numeral is a row of digits and nothing else. -/
def natural? (n : Numeral) : Option Nat :=
  if n.negative = false ∧ n.fraction = [] ∧ n.exponent = none then some (ofDigits n.whole)
  else none

/-- The numeral of a natural number. -/
def ofNat (n : Nat) : Numeral :=
  { whole := Nat.toDigits 10 n }

/-- The power of ten of the last digit. -/
def scale (n : Numeral) : Int :=
  let exponent : Int := match n.exponent with
    | none => 0
    | some (true, digits) => -(ofDigits digits : Int)
    | some (false, digits) => ofDigits digits
  exponent - n.fraction.length

/-- All digits, without the point. -/
def significand (n : Numeral) : Nat :=
  ofDigits (n.whole ++ n.fraction)

/-- The least number that is rounded to infinity in the 64-bit binary format. -/
def overflow : Nat :=
  Nat.pow 2 1024 - Nat.pow 2 970

/-- Whether the number is finite in the 64-bit binary format.  A numeral with more than 400
digits before the point is not, so no power larger than that is ever computed. -/
def isFinite (n : Numeral) : Bool :=
  if n.significand = 0 then true
  else
    let digits : Int := (Nat.toDigits 10 n.significand).length
    if digits + n.scale > 400 then false
    else if digits + n.scale < 300 then true
    else if n.scale ≥ 0 then n.significand * Nat.pow 10 n.scale.toNat < overflow
    else n.significand < overflow * Nat.pow 10 (-n.scale).toNat

/-! ### Reading in rounded steps -/

/-- The nearest number of at most 53 significant bits.  A tie goes to the even neighbour. -/
def roundBinary (n : Nat) : Nat :=
  let unit := Nat.pow 2 (n.log2 - 52)
  let up := unit < 2 * (n % unit) || (unit == 2 * (n % unit) && n / unit % 2 == 1)
  (n / unit + if up then 1 else 0) * unit

/-- Continues a number with digits as long as it is a 64-bit word, and returns the digits that
are left. -/
def continueWord (n : Nat) : List Char → Nat × List Char
  | [] => (n, [])
  | c :: digits =>
    let next := n * 10 + Text.digitValue c
    if next < UInt64.size then continueWord next digits else (n, c :: digits)

/-- The number that the leading digits make as a 64-bit word, and the power of ten by which it
is multiplied. -/
def leading (n : Numeral) : Nat × Int :=
  let (whole, surplus) := continueWord 0 n.whole
  let (word, dropped) := continueWord whole n.fraction
  (word, n.scale + dropped.length + surplus.length)

/-- Whether the number is finite when it is read in steps, each of which rounds: the leading
digits, the power of ten, and their product.  Powers above 308 are not finite themselves, and
one below zero makes the number smaller. -/
def staysFinite (n : Numeral) : Bool :=
  let (word, power) := n.leading
  if word = 0 ∨ power < 0 then true
  else power ≤ 308 && roundBinary word * roundBinary (Nat.pow 10 power.toNat) < overflow

end Numeral

end LintHost
