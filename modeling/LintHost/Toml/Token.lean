/-
LintHost/Toml/Token.lean

The pieces of a TOML document: quoted strings, comments, line ends, and single
characters of everything else.  A quote opens a string wherever it is met outside
strings and comments, so the pieces can be told apart without looking at the
structure of the document.  A string keeps its spelling beside its value.  A
carriage return may stand only in front of a line feed and is not kept, except
inside strings.
Main facts: a character that is no quote, comment sign or control character is a
token of its own (`tokens_cons`).
-/
import LintHost.Text.Digit
import LintHost.Text.Lines

namespace LintHost.Toml

/-- A piece of a document. -/
inductive Token where
  /-- A string with its quotes, whether it may span lines, and what it stands for. -/
  | quoted (spelling : List Char) (multiline : Bool) (value : List Char)
  /-- A comment with its sign, up to the end of its line. -/
  | comment (text : List Char)
  /-- The end of a line. -/
  | newline
  /-- Any other character. -/
  | char (c : Char)
  deriving DecidableEq, Repr, Inhabited

namespace Token

/-- The characters of a token. -/
def text : Token → List Char
  | quoted spelling _ _ => spelling
  | comment text => text
  | newline => ['\n']
  | char c => [c]

/-- A space or a tab. -/
def isBlank (t : Token) : Bool :=
  t == char ' ' || t == char '\t'

/-- What may stand between the items of an array: blanks, line ends and comments. -/
def isGap : Token → Bool
  | comment _ | newline => true
  | t => t.isBlank

end Token

/-- The characters of a row of tokens. -/
def written (ts : List Token) : List Char :=
  ts.flatMap Token.text

/-! ### Characters -/

/-- Whether a character may be written as itself: no control character but the tab. -/
def isPlain (c : Char) : Bool :=
  c == '\t' || (0x20 ≤ c.toNat && c.toNat ≠ 0x7F)

/-- Whether a string holds only plain characters and, if it may span lines, line ends. -/
def isContent (multiline : Bool) : List Char → Bool
  | [] => true
  | '\r' :: '\n' :: s => multiline && isContent multiline s
  | '\n' :: s => multiline && isContent multiline s
  | c :: s => isPlain c && isContent multiline s

/-! ### Escapes -/

/-- The character with the given hexadecimal number, if it is a scalar value. -/
def scalar? (digits : List Char) : Option Char := do
  let n ← Text.ofBase? 16 digits
  if n.isValidChar then some (Char.ofNat n) else none

/-- What a one-character escape stands for. -/
def shortEscape? : Char → Option Char
  | 'b' => some '\x08'
  | 't' => some '\t'
  | 'n' => some '\n'
  | 'f' => some '\x0c'
  | 'r' => some '\r'
  | 'e' => some '\x1b'
  | '"' => some '"'
  | '\\' => some '\\'
  | _ => none

/-- Whether only blanks stand before the next line end. -/
def endsLine (s : List Char) : Bool :=
  match s.dropWhile (fun c => c == ' ' || c == '\t') with
  | '\n' :: _ | '\r' :: '\n' :: _ => true
  | _ => false

/-- The value of a string's content.  A backslash at the end of a line drops the line end and
all blanks and line ends after it; `dropping` says that it is being done. -/
def unescape (multiline : Bool) : (dropping : Bool) → List Char → Option (List Char)
  | _, [] => some []
  | _, '\\' :: 'x' :: a :: b :: s => do return (← scalar? [a, b]) :: (← unescape multiline false s)
  | _, '\\' :: 'u' :: a :: b :: c :: d :: s => do
    return (← scalar? [a, b, c, d]) :: (← unescape multiline false s)
  | _, '\\' :: 'U' :: a :: b :: c :: d :: e :: f :: g :: h :: s => do
    return (← scalar? [a, b, c, d, e, f, g, h]) :: (← unescape multiline false s)
  | _, '\\' :: c :: s =>
    if multiline && endsLine (c :: s) then unescape multiline true s
    else do return (← shortEscape? c) :: (← unescape multiline false s)
  | dropping, c :: s =>
    if dropping && (c == ' ' || c == '\t' || c == '\r' || c == '\n') then
      unescape multiline true s
    else do return c :: (← unescape multiline false s)

/-! ### Strings -/

/-- Puts a character in front of the content that was read. -/
def consContent (c : Char) (r : Option (List Char × List Char)) : Option (List Char × List Char) :=
  r.map fun p => (c :: p.1, p.2)

/-- The content of a string up to its quote, and what follows the quote.  With `escapes`, the
character after a backslash does not close; `escaped` says that one stands there. -/
def untilQuote (quote : Char) (escapes : Bool) :
    (escaped : Bool) → List Char → Option (List Char × List Char)
  | _, [] => none
  | true, c :: s => consContent c (untilQuote quote escapes false s)
  | false, c :: s =>
    if c = quote then some ([], s)
    else consContent c (untilQuote quote escapes (escapes && c == '\\') s)

/-- The content of a string up to three of its quotes, and what follows them.  One or two more
quotes in front of the closing three belong to the content. -/
def untilThreeQuotes (quote : Char) (escapes : Bool) :
    (escaped : Bool) → List Char → Option (List Char × List Char)
  | _, [] => none
  | true, c :: s => consContent c (untilThreeQuotes quote escapes false s)
  | false, c :: s =>
    let run := (c :: s).takeWhile (· == quote)
    if 5 < run.length then none
    else if 3 ≤ run.length then some (run.drop 3, (c :: s).dropWhile (· == quote))
    else consContent c (untilThreeQuotes quote escapes (escapes && c == '\\') s)

/-- The content without the line end right after the opening quotes. -/
def dropFirstNewline : List Char → List Char
  | '\n' :: s => s
  | '\r' :: '\n' :: s => s
  | s => s

/-- The token of a string with the given content. -/
def quotedToken (quote : Char) (multiline : Bool) (content : List Char) : Option Token := do
  let marks := List.replicate (if multiline then 3 else 1) quote
  if !isContent multiline content then none
  let inner := if multiline then dropFirstNewline content else content
  let value ← if quote = '"' then unescape multiline false inner else some inner
  return .quoted (marks ++ content ++ marks) multiline value

/-- Reads a string, from its opening quote on. -/
def readQuoted (quote : Char) (s : List Char) : Option (Token × List Char) :=
  let escapes := quote == '"'
  match s with
  | a :: b :: s =>
    if a = quote ∧ b = quote then do
      let (content, rest) ← untilThreeQuotes quote escapes false s
      return (← quotedToken quote true content, rest)
    else do
      let (content, rest) ← untilQuote quote escapes false (a :: b :: s)
      return (← quotedToken quote false content, rest)
  | s => do
    let (content, rest) ← untilQuote quote escapes false s
    return (← quotedToken quote false content, rest)

theorem length_untilQuote {quote : Char} {escapes escaped : Bool} {s content rest : List Char}
    (h : untilQuote quote escapes escaped s = some (content, rest)) :
    rest.length ≤ s.length := by
  fun_induction untilQuote quote escapes escaped s generalizing content with
  | case1 => simp at h
  | case2 c s ih =>
    obtain ⟨⟨_, _⟩, hr, hp⟩ := Option.map_eq_some_iff.1 h
    cases hp
    exact Nat.le_succ_of_le (ih hr)
  | case3 s =>
    cases h
    simp
  | case4 c s _ ih =>
    obtain ⟨⟨_, _⟩, hr, hp⟩ := Option.map_eq_some_iff.1 h
    cases hp
    exact Nat.le_succ_of_le (ih hr)

theorem length_untilThreeQuotes {quote : Char} {escapes escaped : Bool}
    {s content rest : List Char}
    (h : untilThreeQuotes quote escapes escaped s = some (content, rest)) :
    rest.length ≤ s.length := by
  fun_induction untilThreeQuotes quote escapes escaped s generalizing content with
  | case1 => simp at h
  | case2 c s ih =>
    obtain ⟨⟨_, _⟩, hr, hp⟩ := Option.map_eq_some_iff.1 h
    cases hp
    exact Nat.le_succ_of_le (ih hr)
  | case3 => simp at h
  | case4 c s =>
    cases h
    exact (List.dropWhile_suffix _).length_le
  | case5 c s =>
    rename_i ih
    obtain ⟨⟨_, _⟩, hr, hp⟩ := Option.map_eq_some_iff.1 h
    cases hp
    exact Nat.le_succ_of_le (ih hr)

theorem length_readQuoted {quote : Char} {s rest : List Char} {t : Token}
    (h : readQuoted quote s = some (t, rest)) : rest.length ≤ s.length := by
  unfold readQuoted at h
  split at h
  · split at h
    · simp only [Option.bind_eq_bind, Option.bind_eq_some_iff, Prod.exists, Option.pure_def,
        Option.some.injEq, Prod.mk.injEq] at h
      obtain ⟨c, r, hr, -, -, -, rfl⟩ := h
      have := length_untilThreeQuotes hr
      simp only [List.length_cons]
      omega
    · simp only [Option.bind_eq_bind, Option.bind_eq_some_iff, Prod.exists, Option.pure_def,
        Option.some.injEq, Prod.mk.injEq] at h
      obtain ⟨c, r, hr, -, -, -, rfl⟩ := h
      exact length_untilQuote hr
  · simp only [Option.bind_eq_bind, Option.bind_eq_some_iff, Prod.exists, Option.pure_def,
      Option.some.injEq, Prod.mk.injEq] at h
    obtain ⟨c, r, hr, -, -, -, rfl⟩ := h
    exact length_untilQuote hr

/-! ### Tokens -/

/-- The comment at the front of a text, and what follows it.  A carriage return that ends it is
part of the line end. -/
def readComment (s : List Char) : Option (Token × List Char) :=
  let line := s.takeWhile (· ≠ '\n')
  let rest := s.dropWhile (· ≠ '\n')
  let text := if rest ≠ [] ∧ line.getLast? = some '\r' then line.dropLast else line
  if text.all isPlain then some (.comment text, rest) else none

theorem length_readComment {s rest : List Char} {t : Token}
    (h : readComment s = some (t, rest)) : rest.length ≤ s.length := by
  unfold readComment at h
  simp only [Option.ite_none_right_eq_some, Option.some.injEq, Prod.mk.injEq] at h
  obtain ⟨-, -, rfl⟩ := h
  exact (List.dropWhile_suffix _).length_le

/-- The tokens of a text; none if a string is not closed or malformed, or if a control character
stands where it may not. -/
def tokens : List Char → Option (List Token)
  | [] => some []
  | '\r' :: '\n' :: s => do return .newline :: (← tokens s)
  | '\n' :: s => do return .newline :: (← tokens s)
  | c :: s =>
    if c = '#' then
      match _h : readComment s with
      | some (.comment text, rest) => do return .comment (c :: text) :: (← tokens rest)
      | _ => none
    else if c = '"' ∨ c = '\'' then
      match _h : readQuoted c s with
      | some (t, rest) => do return t :: (← tokens rest)
      | none => none
    else if isPlain c then do return .char c :: (← tokens s)
    else none
termination_by s => s.length
decreasing_by
  · simp only [List.length_cons]; omega
  · simp only [List.length_cons]; omega
  · exact Nat.lt_succ_of_le (length_readComment _h)
  · exact Nat.lt_succ_of_le (length_readQuoted _h)
  · simp only [List.length_cons]; omega

theorem tokens_cons {c : Char} (s : List Char) (hp : isPlain c = true) (hc : c ≠ '#')
    (hq : c ≠ '"') (ha : c ≠ '\'') : tokens (c :: s) = (tokens s).map (.char c :: ·) := by
  have hr : c ≠ '\r' := by rintro rfl; simp [isPlain] at hp
  have hn : c ≠ '\n' := by rintro rfl; simp [isPlain] at hp
  rw [tokens]
  · simp only [hc, hq, ha, hp, if_false, if_true, or_self]
    cases tokens s <;> rfl
  · exact fun _ h => absurd h hr
  · exact hn

end LintHost.Toml
