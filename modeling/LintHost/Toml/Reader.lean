/-
LintHost/Toml/Reader.lean

Reading values from tokens.  A value is a string, a word, an array or an inline table.
Arrays and inline tables may go over lines and hold comments, and a comma may follow
their last item.  They may be nested 80 deep.  A value comes with the tokens that write
it: those that were read, but for inline tables, whose members are written in the
order of their tree.
Main facts: a quoted string is written as it was read (`readValue_quoted`).
-/
import LintHost.Toml.Layout
import LintHost.Toml.Scalar

namespace LintHost.Toml

/-- The depth to which values may be nested. -/
def maxDepth : Nat := 80

/-- A value, and the tokens that write it. -/
structure Literal where
  value : Value
  tokens : List Token
  deriving Inhabited

/-- Reading takes a piece from the front of the tokens and returns the rest. -/
abbrev Reader (α : Type) := List Token → Option (α × List Token)

/-- The tokens up to the first one of another kind, and those from it on. -/
def takeKind (kind : Token → Bool) (ts : List Token) : List Token × List Token :=
  (ts.takeWhile kind, ts.dropWhile kind)

/-! ### Words -/

/-- The word at the front of the tokens. -/
def takeWord : List Token → List Char × List Token
  | .char c :: ts =>
    if isWordPart c then
      let (word, rest) := takeWord ts
      (c :: word, rest)
    else ([], .char c :: ts)
  | ts => ([], ts)

/-- Whether tokens start with a blank and a digit, as a time does that follows a date. -/
def startsTime : List Token → Bool
  | .char ' ' :: .char c :: _ => c.isDigit
  | _ => false

/-- A value that is a word.  A date and a time may have a space between them. -/
def readWord : Reader Literal := fun ts => do
  let (word, rest) := takeWord ts
  let (word, rest) :=
    if afterDate? word = some [] ∧ startsTime rest then
      let (time, rest) := takeWord rest.tail
      (word ++ ' ' :: time, rest)
    else (word, rest)
  return (⟨← Value.ofWord? word, word.map Token.char⟩, rest)

/-! ### Arrays and inline tables -/

/-- The items of an array up to its closing bracket, and the tokens that write them with the
bracket.  `fuel` bounds the number of items by the number of tokens. -/
def readItems (item : Reader Literal) : (fuel : Nat) → Reader (List Value × List Token)
  | 0, _ => none
  | fuel + 1, ts =>
    let (before, ts) := takeKind Token.isGap ts
    match ts with
    | .char ']' :: ts => some (([], before ++ [.char ']']), ts)
    | ts => do
      let (first, ts) ← item ts
      let (after, ts) := takeKind Token.isGap ts
      let tokens := before ++ first.tokens ++ after
      match ts with
      | .char ',' :: ts => do
        let ((values, more), ts) ← readItems item fuel ts
        return ((first.value :: values, tokens ++ .char ',' :: more), ts)
      | .char ']' :: ts => return (([first.value], tokens ++ [.char ']']), ts)
      | _ => none

/-- The members of an inline table up to its closing brace: their paths, and their values with
what stands around them.  With them comes what is written behind the last member. -/
def readMembers (item : Reader Literal) :
    (fuel : Nat) → Reader (List (List Key × Literal) × List Token)
  | 0, _ => none
  | fuel + 1, ts =>
    match takeKind Token.isGap ts with
    | (before, .char '}' :: ts) => some (([], before), ts)
    | _ => do
      let (label, ts) ← Text.splitFirst? (.char '=') ts
      let path ← readPath Token.isGap label
      let (before, ts) := takeKind Token.isGap ts
      let (first, ts) ← item ts
      let (after, ts) := takeKind Token.isGap ts
      let member := (path, ⟨first.value, before ++ first.tokens ++ after⟩)
      match ts with
      | .char ',' :: ts => do
        let ((members, last), ts) ← readMembers item fuel ts
        return ((member :: members, if members.isEmpty then .char ',' :: last else last), ts)
      | .char '}' :: ts => return (([member], []), ts)
      | _ => none

/-- The inline table with the given members, and what is written behind the last one. -/
def inlineTable (named : List (List Key × Literal)) (last : List Token) : Option Literal := do
  let members ← named.foldlM (fun members m => define m.2.value m.2.tokens m.1 members) []
  return ⟨.table (valuesOf members),
    .char '{' :: Text.joinWith [.char ','] (entriesOf [] members) ++ last ++ [.char '}']⟩

/-- A value that starts at the front of the tokens and nests at most `depth` deep. -/
def readValue : (depth : Nat) → Reader Literal
  | _, .quoted spelling multiline value :: ts =>
    some (⟨.string (String.ofList value), [.quoted spelling multiline value]⟩, ts)
  | depth + 1, .char '[' :: ts => do
    let ((items, tokens), ts) ← readItems (readValue depth) (ts.length + 1) ts
    return (⟨.array items, .char '[' :: tokens⟩, ts)
  | depth + 1, .char '{' :: ts => do
    let ((members, last), ts) ← readMembers (readValue depth) (ts.length + 1) ts
    return (← inlineTable members last, ts)
  | _, ts => readWord ts

theorem readValue_quoted (depth : Nat) (spelling value : List Char) (multiline : Bool)
    (ts : List Token) :
    readValue depth (.quoted spelling multiline value :: ts)
      = some (⟨.string (String.ofList value), [.quoted spelling multiline value]⟩, ts) := by
  cases depth <;> rfl

end LintHost.Toml
