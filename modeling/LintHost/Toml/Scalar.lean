/-
LintHost/Toml/Scalar.lean

Values written without quotes or brackets: booleans, integers, floats and dates.
Digits may be grouped by single underscores between them.  Dates and times are
checked against the calendar; seconds may be left out, and the second 60 is
allowed.
-/
import LintHost.Text.Lines
import LintHost.Toml.Value

namespace LintHost.Toml

/-! ### Digits and signs -/

/-- The digits of a row that may be grouped by underscores. -/
def ungroup? (s : List Char) : Option (List Char) :=
  let groups := Text.splitOn '_' s
  if groups.all (· ≠ []) then some groups.flatten else none

/-- A non-empty row of decimal digits, without its underscores. -/
def digits? (s : List Char) : Option (List Char) :=
  (ungroup? s).filter (·.all Char.isDigit)

/-- Decimal digits that start with a zero only if there is no other digit. -/
def whole? (s : List Char) : Option (List Char) :=
  (digits? s).filter fun d => d.head? ≠ some '0' || d.length == 1

/-- Splits off a sign; true for a minus. -/
def splitSign : List Char → Bool × List Char
  | '+' :: s => (false, s)
  | '-' :: s => (true, s)
  | s => (false, s)

/-! ### Numbers -/

/-- An integer, in decimal with an optional sign, or in another base after its mark. -/
def integer? : List Char → Option Int
  | '0' :: 'x' :: s => do return (← Text.ofBase? 16 (← ungroup? s) : Nat)
  | '0' :: 'o' :: s => do return (← Text.ofBase? 8 (← ungroup? s) : Nat)
  | '0' :: 'b' :: s => do return (← Text.ofBase? 2 (← ungroup? s) : Nat)
  | s => do
    let (negative, s) := splitSign s
    let n : Int := Text.ofDigits (← whole? s)
    return if negative then -n else n

/-- The exponent of a float, after its mark. -/
def exponent? (s : List Char) : Option (Bool × List Char) := do
  let (negative, s) := splitSign s
  return (negative, ← digits? s)

/-- Splits a float at the mark of its exponent. -/
def splitExponent (s : List Char) : List Char × Option (List Char) :=
  let before := s.takeWhile fun c => c ≠ 'e' ∧ c ≠ 'E'
  match s.dropWhile fun c => c ≠ 'e' ∧ c ≠ 'E' with
  | [] => (before, none)
  | _ :: after => (before, some after)

/-- The numeral of a float, which has a fraction or an exponent. -/
def numeral? (s : List Char) : Option Numeral := do
  let (negative, s) := splitSign s
  let (mantissa, power) := splitExponent s
  let exponent ← match power with
    | none => some none
    | some power => (exponent? power).map some
  match Text.splitFirst? '.' mantissa with
  | some (whole, fraction) => return ⟨negative, ← whole? whole, ← digits? fraction, exponent⟩
  | none =>
    if exponent.isNone then none
    return ⟨negative, ← whole? mantissa, [], exponent⟩

/-- A float: infinity, what is no number, or a numeral. -/
def float? (s : List Char) : Option (Option Numeral) :=
  let body := (splitSign s).2
  if body = "inf".toList ∨ body = "nan".toList then some none else (numeral? s).map some

/-! ### Dates -/

/-- Whether a year has a 29th of February. -/
def isLeap (year : Nat) : Bool :=
  year % 4 == 0 && (year % 100 ≠ 0 || year % 400 == 0)

/-- The number of days of a month. -/
def daysIn (year month : Nat) : Nat :=
  if month = 2 then if isLeap year then 29 else 28
  else if month = 4 ∨ month = 6 ∨ month = 9 ∨ month = 11 then 30
  else 31

/-- What follows a calendar date. -/
def afterDate? : List Char → Option (List Char)
  | y₁ :: y₂ :: y₃ :: y₄ :: '-' :: m₁ :: m₂ :: '-' :: d₁ :: d₂ :: s => do
    let year ← Text.ofDecimal? [y₁, y₂, y₃, y₄]
    let month ← Text.ofDecimal? [m₁, m₂]
    let day ← Text.ofDecimal? [d₁, d₂]
    if 1 ≤ month ∧ month ≤ 12 ∧ 1 ≤ day ∧ day ≤ daysIn year month then some s else none
  | _ => none

/-- What follows hours and minutes. -/
def afterMinutes? : List Char → Option (List Char)
  | h₁ :: h₂ :: ':' :: m₁ :: m₂ :: s => do
    let hour ← Text.ofDecimal? [h₁, h₂]
    let minute ← Text.ofDecimal? [m₁, m₂]
    if hour ≤ 23 ∧ minute ≤ 59 then some s else none
  | _ => none

/-- What follows the seconds and their fraction, if there are any. -/
def afterSeconds? : List Char → Option (List Char)
  | ':' :: s₁ :: s₂ :: s => do
    let second ← Text.ofDecimal? [s₁, s₂]
    if 60 < second then none
    match s with
    | '.' :: s => if (s.takeWhile Char.isDigit).isEmpty then none else s.dropWhile Char.isDigit
    | s => s
  | ':' :: _ => none
  | s => s

/-- What follows a time of day. -/
def afterTime? (s : List Char) : Option (List Char) := do
  afterSeconds? (← afterMinutes? s)

/-- Whether a text is empty or the offset of a time zone. -/
def isOffset : List Char → Bool
  | [] | ['Z'] | ['z'] => true
  | '+' :: s | '-' :: s => afterMinutes? s == some []
  | _ => false

/-- Whether a text is a date, a time, or both with or without an offset. -/
def isDate (s : List Char) : Bool :=
  match afterDate? s with
  | some [] => true
  | some (c :: s) => (c == 'T' || c == 't' || c == ' ') && (afterTime? s).any isOffset
  | none => afterTime? s == some []

/-! ### Scalars -/

/-- The value of a word. -/
def Value.ofWord? (s : List Char) : Option Value :=
  if s = "true".toList then some (.boolean true)
  else if s = "false".toList then some (.boolean false)
  else if isDate s then some (.date s)
  else match integer? s with
    | some n => some (.integer n)
    | none => (float? s).map .float

/-- The characters of which words are made. -/
def isWordPart (c : Char) : Bool :=
  c.isAlphanum || c == '+' || c == '-' || c == '_' || c == '.' || c == ':'

end LintHost.Toml
