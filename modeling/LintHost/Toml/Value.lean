/-
LintHost/Toml/Value.lean

TOML values.  Numbers are kept as they denote: integers are whole numbers of any size,
and floats are numerals.  Which of them can be used is another question (`isWithin`).
Dates keep their spelling, which nothing here reads further.
-/
import LintHost.Numeral

namespace LintHost.Toml

/-- A TOML value. -/
inductive Value where
  | string (s : String)
  | integer (n : Int)
  /-- A float; infinity and what is no number have no numeral. -/
  | float (n : Option Numeral)
  | boolean (b : Bool)
  | date (spelling : List Char)
  | array (items : List Value)
  | table (members : List (String × Value))
  deriving Repr, Inhabited

/-! ### Numbers that can be used -/

/-- The integers that can be used. -/
structure Bounds where
  least : Int
  greatest : Int
  deriving DecidableEq, Repr

/-- Whether an integer is within bounds. -/
def Bounds.admits (b : Bounds) (n : Int) : Bool :=
  b.least ≤ n && n ≤ b.greatest

/-- The integers of values that are looked at: 128-bit words, signed or not. -/
def Bounds.wide : Bounds :=
  ⟨-Nat.pow 2 127, Nat.pow 2 128 - 1⟩

/-- The integers of a document that is edited: signed 64-bit words. -/
def Bounds.narrow : Bounds :=
  ⟨-Nat.pow 2 63, Nat.pow 2 63 - 1⟩

mutual

/-- Whether all integers in a value are within bounds, and all its numerals are finite as 64-bit
floats. -/
def Value.isWithin (b : Bounds) : Value → Bool
  | .integer n => b.admits n
  | .float n => n.all Numeral.isFinite
  | .array items => itemsWithin b items
  | .table members => membersWithin b members
  | .string _ | .boolean _ | .date _ => true

/-- Whether all numbers in values can be used. -/
def itemsWithin (b : Bounds) : List Value → Bool
  | [] => true
  | v :: rest => v.isWithin b && itemsWithin b rest

/-- Whether all numbers in the values of members can be used. -/
def membersWithin (b : Bounds) : List (String × Value) → Bool
  | [] => true
  | (_, v) :: rest => v.isWithin b && membersWithin b rest

end

end LintHost.Toml
