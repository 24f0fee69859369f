/-
LintHost/Toml/Key.lean

Keys as they are written.  A key keeps its spelling, the blanks between it and the
dots beside it, and what stands around a path that it ends.  So a path can be
written with keys that were met at different places of a document.
Main facts: a part of a path is written as it was read (`tokens_readPart`).
-/
import LintHost.Toml.Token

namespace LintHost.Toml

/-- A key. -/
structure Key where
  name : String
  spelling : List Token
  /-- The blanks between the dot before the key and the key. -/
  before : List Token := []
  /-- The blanks between the key and the dot behind it. -/
  after : List Token := []
  /-- What stands before a path that the key ends. -/
  lead : List Token := []
  /-- What stands behind a path that the key ends. -/
  gap : List Token := [.char ' ']
  deriving DecidableEq, Repr, Inhabited

/-- The number of parts that a path may have. -/
def maxParts : Nat := 80

/-! ### Writing -/

/-- Tokens for a text of plain characters. -/
def plainTokens (s : String) : List Token :=
  s.toList.map Token.char

/-- A key that is spelled by its name. -/
def Key.plain (name : String) : Key :=
  { name, spelling := plainTokens name }

/-- Keys with dots between them. -/
def dotted : List Key → List Token
  | [] => []
  | [k] => k.spelling
  | k :: l :: path => k.spelling ++ k.after ++ .char '.' :: (l.before ++ dotted (l :: path))

/-- A path, in the margins of its last key. -/
def pathTokens (path : List Key) : List Token :=
  match path.getLast? with
  | none => []
  | some last => last.lead ++ dotted path ++ last.gap

/-! ### Reading -/

/-- The characters of which unquoted keys are made. -/
def isKeyPart (c : Char) : Bool :=
  c.isAlphanum || c == '_' || c == '-'

/-- The characters of tokens that are all characters. -/
def plainChars? (ts : List Token) : Option (List Char) :=
  ts.mapM fun
    | .char c => some c
    | _ => none

/-- The name that is spelled by a string on one line, or by a non-empty row of key
characters. -/
def nameOf? : List Token → Option String
  | [.quoted _ false value] => some (String.ofList value)
  | ts => do
    let cs ← plainChars? ts
    if cs ≠ [] ∧ cs.all isKeyPart then some (String.ofList cs) else none

/-- The tokens without those of a kind that stand at the end, and those. -/
def splitEnd (kind : Token → Bool) (ts : List Token) : List Token × List Token :=
  ((ts.reverse.dropWhile kind).reverse, (ts.reverse.takeWhile kind).reverse)

theorem splitEnd_append (kind : Token → Bool) (ts : List Token) :
    (splitEnd kind ts).1 ++ (splitEnd kind ts).2 = ts := by
  rw [splitEnd, ← List.reverse_append, List.takeWhile_append_dropWhile, List.reverse_reverse]

/-- One part of a path with the blanks around it. -/
def readPart (ts : List Token) : Option Key := do
  let (spelling, after) := splitEnd Token.isBlank (ts.dropWhile Token.isBlank)
  return { name := ← nameOf? spelling, spelling, before := ts.takeWhile Token.isBlank, after }

theorem tokens_readPart {ts : List Token} {k : Key} (h : readPart ts = some k) :
    k.before ++ k.spelling ++ k.after = ts := by
  simp only [readPart, Option.bind_eq_bind, Option.bind_eq_some_iff, Option.pure_def,
    Option.some.injEq] at h
  obtain ⟨name, -, rfl⟩ := h
  rw [List.append_assoc, splitEnd_append, List.takeWhile_append_dropWhile]

/-- Puts margins around a path. -/
def withMargins (lead gap : List Token) : List Key → List Key
  | [] => []
  | [k] => [{ k with lead, gap }]
  | k :: path => k :: withMargins lead gap path

/-- A path: parts with dots between them, in margins of tokens of a kind. -/
def readPath (margin : Token → Bool) (ts : List Token) : Option (List Key) := do
  let (inner, gap) := splitEnd margin (ts.dropWhile margin)
  let path ← (Text.splitOn (.char '.') inner).mapM readPart
  if maxParts < path.length then none
  return withMargins (ts.takeWhile margin) gap path

end LintHost.Toml
