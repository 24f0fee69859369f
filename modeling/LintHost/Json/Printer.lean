/-
LintHost/Json/Printer.lean

Printing JSON values over several lines, two spaces for each level.  Empty
arrays and objects stay on one line.  In a string only the quote, the backslash
and the control characters below the space are escaped.  `sortMembers` gives the
value whose members stand in the order of their names.
-/
import LintHost.Json.Value

namespace LintHost.Json

/-- The hexadecimal digit of a number below 16, in lower case. -/
def hexDigit (n : Nat) : Char :=
  if n < 10 then Char.ofNat ('0'.toNat + n) else Char.ofNat ('a'.toNat + (n - 10))

/-- The characters that write a character inside a string. -/
def escape (c : Char) : List Char :=
  match c with
  | '"' => ['\\', '"']
  | '\\' => ['\\', '\\']
  | '\x08' => ['\\', 'b']
  | '\t' => ['\\', 't']
  | '\n' => ['\\', 'n']
  | '\x0c' => ['\\', 'f']
  | '\r' => ['\\', 'r']
  | c =>
    if c.toNat < 0x20 then
      ['\\', 'u', '0', '0', hexDigit (c.toNat / 16), hexDigit (c.toNat % 16)]
    else [c]

/-- A text between quotes. -/
def quote (s : List Char) : List Char :=
  '"' :: s.flatMap escape ++ ['"']

/-- The characters of a numeral. -/
def numeralChars (n : Numeral) : List Char :=
  (if n.negative then ['-'] else []) ++ n.whole
    ++ (if n.fraction = [] then [] else '.' :: n.fraction)
    ++ match n.exponent with
      | none => []
      | some (negative, digits) => 'e' :: (if negative then ['-'] else []) ++ digits

/-- A line feed and two spaces for each level. -/
def newline (level : Nat) : List Char :=
  '\n' :: List.replicate (2 * level) ' '

/-- The pieces on lines of their own, one level deeper than the brackets around them. -/
def block (opening closing : Char) (level : Nat) : List (List Char) → List Char
  | [] => [opening, closing]
  | piece :: pieces =>
    opening :: newline (level + 1) ++ piece
      ++ pieces.flatMap (fun p => ',' :: newline (level + 1) ++ p)
      ++ newline level ++ [closing]

mutual

/-- The lines of a value whose first line is indented by `level`. -/
def printAt (level : Nat) : Value → List Char
  | .null => "null".toList
  | .bool true => "true".toList
  | .bool false => "false".toList
  | .number n => numeralChars n
  | .string s => quote s.toList
  | .array items => block '[' ']' level (printItems (level + 1) items)
  | .object members => block '\x7b' '\x7d' level (printMembers (level + 1) members)

/-- The lines of each item. -/
def printItems (level : Nat) : List Value → List (List Char)
  | [] => []
  | value :: values => printAt level value :: printItems level values

/-- The lines of each member: its name, a colon and its value. -/
def printMembers (level : Nat) : List (String × Value) → List (List Char)
  | [] => []
  | (name, value) :: members =>
    (quote name.toList ++ [':', ' '] ++ printAt level value) :: printMembers level members

end

/-- The text of a value. -/
def print (v : Value) : String :=
  String.ofList (printAt 0 v)

/-! ### Order of members -/

/-- Puts a member in front of the first one whose name is not smaller. -/
def insertMember (m : String × Value) : List (String × Value) → List (String × Value)
  | [] => [m]
  | n :: members => if n.1 < m.1 then n :: insertMember m members else m :: n :: members

mutual

/-- The value with the members of every object ordered by name. -/
def sortMembers : Value → Value
  | .array items => .array (sortItems items)
  | .object members => .object (sortPairs members)
  | v => v

/-- Each value with ordered members. -/
def sortItems : List Value → List Value
  | [] => []
  | value :: values => sortMembers value :: sortItems values

/-- The members in order, each with ordered members of its own. -/
def sortPairs : List (String × Value) → List (String × Value)
  | [] => []
  | (name, value) :: members => insertMember (name, sortMembers value) (sortPairs members)

end

end LintHost.Json
