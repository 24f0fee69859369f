/-
LintHost/Json/Value.lean

JSON values.  A number keeps its numeral, since the same value may be written as
an integer or not and only integers count as rows and columns.  Objects keep
their members in order, repeated names included, so that a repeated member can be
told from a single one (`membersNamed`).
-/
import LintHost.Numeral

namespace LintHost.Json

/-- A JSON value. -/
inductive Value where
  | null
  | bool (b : Bool)
  | number (n : Numeral)
  | string (s : String)
  | array (items : List Value)
  | object (members : List (String × Value))
  deriving Repr, Inhabited

/-! ### Values -/

/-- The value of a natural number. -/
def Value.ofNat (n : Nat) : Value :=
  .number (Numeral.ofNat n)

/-- The value of an optional text. -/
def Value.ofOption : Option String → Value
  | none => .null
  | some s => .string s

/-- The members of an object that carry a given name, in order. -/
def membersNamed (name : String) (members : List (String × Value)) : List Value :=
  (members.filter fun m => m.1 == name).map (·.2)

end LintHost.Json
