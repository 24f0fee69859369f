/-
LintHost/Json/Reader.lean

Reading JSON text.  The text is read from left to right and the first thing that
is wrong decides: `ended` when the text stops inside a value, `malformed`
otherwise.  Arrays and objects may be nested 127 deep.  `readFirst` reads the
first value and returns what follows it, so that a caller can look at the value
before it looks at the rest.  Main facts: what is left after a piece is a suffix
of the text (`hexFour_suffix`, `readEscape_suffix`), which is why reading ends.
-/
import LintHost.Json.Value

namespace LintHost.Json

/-- Why a text is not a JSON value. -/
inductive Fault where
  /-- The text ends inside a value. -/
  | ended
  /-- A character stands where none of its kind may stand. -/
  | malformed
  deriving DecidableEq, Repr, Inhabited

/-- Reading takes a piece from the front of a text and returns the rest. -/
abbrev Reader (α : Type) := List Char → Except Fault (α × List Char)

/-- The depth to which arrays and objects may be nested. -/
def maxDepth : Nat := 127

/-- The four characters that may stand between tokens. -/
def isSpace (c : Char) : Bool :=
  c == ' ' || c == '\n' || c == '\t' || c == '\r'

/-- The text from the first character that is not a space. -/
def skipSpace (s : List Char) : List Char :=
  s.dropWhile isSpace

/-- The fault at the front of a text where something else was needed. -/
def faultAt : List Char → Fault
  | [] => .ended
  | _ :: _ => .malformed

/-! ### Literals and numbers -/

/-- The rest of a word whose first character has been recognised. -/
def readWord (value : Value) : List Char → Reader Value
  | [], s => .ok (value, s)
  | w :: word, c :: s => if c = w then readWord value word s else .error .malformed
  | _ :: _, [] => .error .ended

/-- A non-empty row of digits. -/
def readDigits (s : List Char) : Except Fault (List Char × List Char) :=
  match s.takeWhile Char.isDigit with
  | [] => .error (faultAt s)
  | digits => .ok (digits, s.dropWhile Char.isDigit)

/-- The digits before the point: a single zero, or a row that does not start with one. -/
def readWhole : Reader (List Char)
  | '0' :: c :: s => if c.isDigit then .error .malformed else .ok (['0'], c :: s)
  | s => readDigits s

/-- The digits after the point, if there is a point. -/
def readFraction : Reader (List Char)
  | '.' :: s => readDigits s
  | s => .ok ([], s)

/-- The exponent, if there is one. -/
def readExponent : Reader (Option (Bool × List Char))
  | c :: s =>
    if c = 'e' ∨ c = 'E' then do
      let (negative, s) := match s with
        | '+' :: s => (false, s)
        | '-' :: s => (true, s)
        | s => (false, s)
      let (digits, s) ← readDigits s
      return (some (negative, digits), s)
    else .ok (none, c :: s)
  | [] => .ok (none, [])

/-- A number after its sign.  One that does not stay finite as a 64-bit float is malformed. -/
def readNumber (negative : Bool) : Reader Value := fun s => do
  let (whole, s) ← readWhole s
  let (fraction, s) ← readFraction s
  let (exponent, s) ← readExponent s
  let n : Numeral := ⟨negative, whole, fraction, exponent⟩
  if n.staysFinite then return (.number n, s) else .error .malformed

/-! ### Strings -/

/-- The number of bytes that a text takes in UTF-8. -/
def byteLength : List Char → Nat
  | [] => 0
  | c :: s => c.utf8Size + byteLength s

/-- Four hexadecimal digits.  A text of fewer than four bytes has ended. -/
def hexFour : Reader Nat
  | a :: b :: c :: d :: s =>
    match Text.hexValue? a, Text.hexValue? b, Text.hexValue? c, Text.hexValue? d with
    | some a, some b, some c, some d => .ok (((a * 16 + b) * 16 + c) * 16 + d, s)
    | _, _, _, _ => .error .malformed
  | s => .error (if byteLength s < 4 then .ended else .malformed)

/-- The second half of a surrogate pair, written as an escape of its own. -/
def readLowSurrogate : Reader Nat
  | '\\' :: 'u' :: s => do
    let (low, s) ← hexFour s
    if 0xDC00 ≤ low ∧ low ≤ 0xDFFF then return (low, s) else .error .malformed
  | ['\\'] => .error .ended
  | s => .error (faultAt s)

/-- The character of a four-digit escape.  Surrogates count only in pairs. -/
def readUnicode : Reader Char := fun s => do
  let (code, s) ← hexFour s
  if 0xDC00 ≤ code ∧ code ≤ 0xDFFF then .error .malformed
  else if 0xD800 ≤ code ∧ code ≤ 0xDBFF then do
    let (low, s) ← readLowSurrogate s
    return (Char.ofNat (0x10000 + (code - 0xD800) * 0x400 + (low - 0xDC00)), s)
  else return (Char.ofNat code, s)

/-- What a one-character escape stands for. -/
def shortEscape? : Char → Option Char
  | '"' => some '"'
  | '\\' => some '\\'
  | '/' => some '/'
  | 'b' => some '\x08'
  | 'f' => some '\x0c'
  | 'n' => some '\n'
  | 'r' => some '\r'
  | 't' => some '\t'
  | _ => none

/-- The character of an escape, after its backslash. -/
def readEscape : Reader Char
  | [] => .error .ended
  | 'u' :: s => readUnicode s
  | c :: s =>
    match shortEscape? c with
    | some d => .ok (d, s)
    | none => .error .malformed

theorem hexFour_suffix {s rest : List Char} {n : Nat} (h : hexFour s = .ok (n, rest)) :
    rest <:+ s := by
  unfold hexFour at h
  split at h
  · next a b c d s =>
    split at h
    · simp only [Except.ok.injEq, Prod.mk.injEq] at h
      exact h.2 ▸ ⟨[a, b, c, d], rfl⟩
    · simp at h
  · simp at h

theorem readLowSurrogate_suffix {s rest : List Char} {n : Nat}
    (h : readLowSurrogate s = .ok (n, rest)) : rest <:+ s := by
  unfold readLowSurrogate at h
  split at h
  · next s =>
    cases hx : hexFour s with
    | error e => simp [hx, bind, Except.bind] at h
    | ok p =>
      simp only [hx, bind, Except.bind] at h
      split at h
      · simp only [pure, Except.pure, Except.ok.injEq, Prod.mk.injEq] at h
        have hp : p.2 <:+ s := hexFour_suffix hx
        exact (h.2 ▸ hp).trans ⟨['\\', 'u'], rfl⟩
      · simp at h
  · simp at h
  · simp at h

theorem readUnicode_suffix {s rest : List Char} {c : Char} (h : readUnicode s = .ok (c, rest)) :
    rest <:+ s := by
  unfold readUnicode at h
  cases hx : hexFour s with
  | error e => simp [hx, bind, Except.bind] at h
  | ok p =>
    have hp : p.2 <:+ s := hexFour_suffix hx
    simp only [hx, bind, Except.bind] at h
    split at h
    · simp at h
    · split at h
      · cases hl : readLowSurrogate p.2 with
        | error e => simp [hl] at h
        | ok q =>
          simp only [hl, pure, Except.pure, Except.ok.injEq, Prod.mk.injEq] at h
          exact (h.2 ▸ (readLowSurrogate_suffix hl : q.2 <:+ p.2)).trans hp
      · simp only [pure, Except.pure, Except.ok.injEq, Prod.mk.injEq] at h
        exact h.2 ▸ hp

theorem readEscape_suffix {s rest : List Char} {c : Char} (h : readEscape s = .ok (c, rest)) :
    rest <:+ s := by
  unfold readEscape at h
  split at h
  · simp at h
  · exact (readUnicode_suffix h).trans (List.suffix_cons _ _)
  · next d s _ =>
    split at h
    · simp only [Except.ok.injEq, Prod.mk.injEq] at h
      exact h.2 ▸ List.suffix_cons _ _
    · simp at h

/-- The characters of a string up to its closing quote, after the opening one. -/
def readString : Reader (List Char)
  | [] => .error .ended
  | '"' :: s => .ok ([], s)
  | '\\' :: s =>
    match _h : readEscape s with
    | .error e => .error e
    | .ok (c, rest) => do
      let (cs, rest) ← readString rest
      return (c :: cs, rest)
  | c :: s =>
    if c.toNat < 0x20 then .error .malformed
    else do
      let (cs, rest) ← readString s
      return (c :: cs, rest)
termination_by s => s.length
decreasing_by
  · have := (readEscape_suffix _h).length_le
    simp only [List.length_cons]; omega
  · simp

/-! ### Values -/

/-- The pieces of a row after its first one, up to the closing sign.  `fuel` bounds the number of
pieces; the length of the text does. -/
def readRow {α : Type} (close : Char) (piece : Reader α) : (fuel : Nat) → Reader (List α)
  | 0, _ => .error .malformed
  | fuel + 1, s =>
    match skipSpace s with
    | ',' :: s => do
      let (a, s) ← piece (skipSpace s)
      let (as, s) ← readRow close piece fuel s
      return (a :: as, s)
    | c :: s => if c = close then .ok ([], s) else .error .malformed
    | [] => .error .ended

/-- The pieces of a row after its opening sign. -/
def readListing {α : Type} (close : Char) (piece : Reader α) (fuel : Nat) : Reader (List α) :=
  fun s =>
    match skipSpace s with
    | c :: s =>
      if c = close then .ok ([], s)
      else do
        let (a, s) ← piece (c :: s)
        let (as, s) ← readRow close piece fuel s
        return (a :: as, s)
    | [] => .error .ended

/-- A member: a quoted name, a colon and a value. -/
def readMember (item : Reader Value) : Reader (String × Value)
  | '"' :: s => do
    let (name, s) ← readString s
    match skipSpace s with
    | ':' :: s => do
      let (value, s) ← item (skipSpace s)
      return ((String.ofList name, value), s)
    | s => .error (faultAt s)
  | s => .error (faultAt s)

/-- A value that starts at the front of the text and nests at most `depth` deep, with at most
`fuel` items or members anywhere. -/
def readValue (fuel : Nat) : (depth : Nat) → Reader Value
  | _, 'n' :: s => readWord .null "ull".toList s
  | _, 't' :: s => readWord (.bool true) "rue".toList s
  | _, 'f' :: s => readWord (.bool false) "alse".toList s
  | _, '-' :: s => readNumber true s
  | _, '"' :: s => do
    let (cs, s) ← readString s
    return (.string (String.ofList cs), s)
  | depth + 1, '[' :: s => do
    let (items, s) ← readListing ']' (readValue fuel depth) fuel s
    return (.array items, s)
  | depth + 1, '{' :: s => do
    let (members, s) ← readListing '}' (readMember (readValue fuel depth)) fuel s
    return (.object members, s)
  | _, c :: s => if c.isDigit then readNumber false (c :: s) else .error .malformed
  | _, [] => .error .ended

/-- The first value of a text, and what follows it. -/
def readFirst (s : List Char) : Except Fault (Value × List Char) :=
  readValue (s.length + 1) maxDepth (skipSpace s)

end LintHost.Json
