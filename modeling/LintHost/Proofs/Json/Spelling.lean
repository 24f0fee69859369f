/-
LintHost/Proofs/Json/Spelling.lean

The grammar of JSON, as a relation between a value and the texts that spell it
(`Spells`).  The same value has many spellings: spaces between tokens are free, a
character of a string stands for itself or is escaped, an exponent has either
letter.  What a numeral says about its digits is kept, so a spelling belongs to one
value only.

Nothing here knows how a text is read.  A row of pieces between two brackets
(`Listing`) takes the relation that spells a piece as a parameter, and is used for
items and for members.
-/
import LintHost.Json.Reader

namespace LintHost.Json

variable {α : Type}

/-! ### Spaces -/

/-- A text of spaces only, the empty one included. -/
def Gap (s : List Char) : Prop :=
  ∀ c ∈ s, isSpace c = true

theorem Gap.nil : Gap [] := fun _ h => absurd h List.not_mem_nil

/-! ### Numbers -/

/-- A non-empty row of digits. -/
structure Digits (s : List Char) : Prop where
  ne_nil : s ≠ []
  digit : ∀ c ∈ s, c.isDigit = true

/-- The digits before the point: a single zero, or a row that does not start with one. -/
def Whole (s : List Char) : Prop :=
  s = ['0'] ∨ Digits s ∧ s.head? ≠ some '0'

/-- The spellings of the digits after the point. -/
inductive SpellsFraction : List Char → List Char → Prop
  | none : SpellsFraction [] []
  | digits {digits : List Char} : Digits digits → SpellsFraction digits ('.' :: digits)

/-- The spellings of the exponent.  A plus sign may be left out. -/
inductive SpellsExponent : Option (Bool × List Char) → List Char → Prop
  | none : SpellsExponent none []
  | plain {mark : Char} {digits : List Char} : mark = 'e' ∨ mark = 'E' → Digits digits →
      SpellsExponent (some (false, digits)) (mark :: digits)
  | signed {mark : Char} {digits : List Char} (negative : Bool) : mark = 'e' ∨ mark = 'E' →
      Digits digits →
      SpellsExponent (some (negative, digits)) (mark :: (if negative then '-' else '+') :: digits)

/-- The spellings of a numeral without its sign. -/
inductive SpellsUnsigned (n : Numeral) : List Char → Prop
  | mk {fraction exponent : List Char} : Whole n.whole → SpellsFraction n.fraction fraction →
      SpellsExponent n.exponent exponent → SpellsUnsigned n (n.whole ++ (fraction ++ exponent))

/-! ### Strings -/

/-- Four hexadecimal digits that write a number. -/
def SpellsCode (n : Nat) (s : List Char) : Prop :=
  s.length = 4 ∧ Text.ofBase? 16 s = some n

/-- The spellings of a string's characters, with the closing quote.  A character beyond the
16-bit range is escaped as a pair of surrogates. -/
inductive Quotes : List Char → List Char → Prop
  | close : Quotes [] ['"']
  | plain {c : Char} {cs s : List Char} : 0x20 ≤ c.toNat → c ≠ '"' → c ≠ '\\' → Quotes cs s →
      Quotes (c :: cs) (c :: s)
  | short {c e : Char} {cs s : List Char} : shortEscape? e = some c → Quotes cs s →
      Quotes (c :: cs) ('\\' :: e :: s)
  | code {c : Char} {code cs s : List Char} : SpellsCode c.toNat code → Quotes cs s →
      Quotes (c :: cs) ('\\' :: 'u' :: (code ++ s))
  | pair {c : Char} {high low cs s : List Char} : 0x10000 ≤ c.toNat →
      SpellsCode (0xD800 + (c.toNat - 0x10000) / 0x400) high →
      SpellsCode (0xDC00 + (c.toNat - 0x10000) % 0x400) low → Quotes cs s →
      Quotes (c :: cs) ('\\' :: 'u' :: (high ++ '\\' :: 'u' :: (low ++ s)))

/-! ### Rows -/

/-- Pieces with commas between them. -/
inductive Row (R : α → List Char → Prop) : List α → List Char → Prop
  | last {a : α} {before s after : List Char} : Gap before → R a s → Gap after →
      Row R [a] (before ++ (s ++ after))
  | cons {a : α} {as : List α} {before s after t : List Char} : Gap before → R a s → Gap after →
      Row R as t → Row R (a :: as) (before ++ (s ++ (after ++ ',' :: t)))

/-- What stands between two brackets: a gap, or a row of pieces. -/
inductive Listing (R : α → List Char → Prop) : List α → List Char → Prop
  | empty {gap : List Char} : Gap gap → Listing R [] gap
  | row {as : List α} {s : List Char} : Row R as s → Listing R as s

/-- A quoted name, a colon and a value. -/
inductive Labelled (R : Value → List Char → Prop) : String × Value → List Char → Prop
  | mk {name quoted before after s : List Char} {v : Value} : Quotes name quoted → Gap before →
      Gap after → R v s →
      Labelled R (String.ofList name, v) ('"' :: (quoted ++ (before ++ ':' :: (after ++ s))))

/-! ### Values -/

/-- The spellings of a value. -/
inductive Spells : Value → List Char → Prop
  | null : Spells .null "null".toList
  | true : Spells (.bool true) "true".toList
  | false : Spells (.bool false) "false".toList
  | unsigned {n : Numeral} {s : List Char} : n.negative = false → SpellsUnsigned n s →
      Spells (.number n) s
  | negative {n : Numeral} {s : List Char} : n.negative = true → SpellsUnsigned n s →
      Spells (.number n) ('-' :: s)
  | string {cs s : List Char} : Quotes cs s → Spells (.string (String.ofList cs)) ('"' :: s)
  | array {items : List Value} {s : List Char} : Listing Spells items s →
      Spells (.array items) ('[' :: (s ++ [']']))
  | object {members : List (String × Value)} {s : List Char} :
      Listing (Labelled Spells) members s → Spells (.object members) ('{' :: (s ++ ['}']))

end LintHost.Json
