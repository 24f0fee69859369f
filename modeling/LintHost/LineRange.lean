/-
LintHost/LineRange.lean

Ranges of lines as a user writes them: the first and the last line, counted from
one, with a colon between.  A part may have blanks around it and a plus sign in
front of its digits.  Numbers are 64-bit words.  A range that is read has its lines in
order and counts them from zero.
-/
import LintHost.Text.Classes
import LintHost.Text.Digit
import LintHost.Text.Lines

namespace LintHost

/-- A range of lines counted from zero, both ends included. -/
structure LineRange where
  first : Nat
  last : Nat
  deriving DecidableEq, Repr, Inhabited

namespace LineRange

/-- Why a text is not a range. -/
inductive Fault where
  /-- The colon is missing. -/
  | shape (text : String)
  /-- A part is not a line number. -/
  | number (text : String)
  /-- The lines stand in the wrong order. -/
  | order (first last : Nat)
  deriving DecidableEq, Repr

/-- The text shown for a fault. -/
def Fault.message : Fault → String
  | .shape text => "expected START:END, got `" ++ text ++ "`"
  | .number text => "invalid line number `" ++ text ++ "`"
  | .order first last =>
    "start line " ++ toString first ++ " is after end line " ++ toString last

/-- A line number: a positive 64-bit word, with or without a plus sign. -/
def number? (s : List Char) : Option Nat :=
  let digits := match Text.trim s with
    | '+' :: rest => rest
    | rest => rest
  (Text.ofDecimal? digits).filter fun n => 1 ≤ n && n < UInt64.size

/-- A line number, or the fault that quotes the part. -/
def readNumber (s : List Char) : Except Fault Nat :=
  match number? s with
  | some n => .ok n
  | none => .error (.number (String.ofList s))

/-- Reads a range. -/
def read (s : String) : Except Fault LineRange :=
  match Text.splitFirst? ':' s.toList with
  | none => .error (.shape s)
  | some (start, stop) => do
    let first ← readNumber start
    let last ← readNumber stop
    if last < first then throw (.order first last)
    return ⟨first - 1, last - 1⟩

end LineRange

end LintHost
