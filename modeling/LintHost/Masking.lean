/-
LintHost/Masking.lean

Masking of interactive syntax before analysis.  Two patterns are searched for
one after the other, from left to right and without overlap.  The first is a `%`
at the start of a line.  The second starts at the start of a line and ends at
the end of one: blanks, a help request, blanks.  A help request is `?` or `??`
followed by word characters and dots, or non-blank characters followed by `?`
or `??`.  Blanks include line feeds, so a match may span lines.  In front of
the `%` and of the help request `# ` is put in.  The masked text follows one
line of placeholder assignments, which is hidden from the user.
-/
import LintHost.Text.Classes

namespace LintHost.Masking

/-! ### Ordered choice -/

/-- What a pattern does with its match: it gets the characters taken, last one first, and the
rest of the text. -/
abbrev Continue (α : Type) := List Char → List Char → Option α

/-- Takes as many characters of a class as possible, then fewer and fewer, until the
continuation answers. -/
def takeMost {α : Type} (p : Char → Bool) (next : Continue α) : Continue α
  | taken, [] => next taken []
  | taken, c :: rest =>
    if p c then takeMost p next (c :: taken) rest <|> next taken (c :: rest)
    else next taken (c :: rest)

/-- Takes at least one character of a class, as many as possible first. -/
def takeSome {α : Type} (p : Char → Bool) (next : Continue α) : Continue α
  | _, [] => none
  | taken, c :: rest => if p c then takeMost p next (c :: taken) rest else none

/-- Takes a question mark. -/
def takeMark {α : Type} (next : Continue α) : Continue α
  | taken, '?' :: rest => next ('?' :: taken) rest
  | _, _ => none

/-- Takes two question marks, or else one. -/
def takeMarks {α : Type} (next : Continue α) : Continue α := fun taken s =>
  takeMark (fun taken s => takeMark next taken s <|> next taken s) taken s

/-! ### The two patterns -/

/-- Word characters and dots, of which the name in a help request is made. -/
def isNamePart (c : Char) : Bool :=
  Text.isWord c || c == '.'

/-- A help request: marks and a name, or else non-blank characters and marks. -/
def takeRequest {α : Type} (next : Continue α) : Continue α := fun taken s =>
  takeMarks (takeSome isNamePart next) taken s
    <|> takeSome (fun c => !Text.isBlank c) (takeMarks next) taken s

/-- Whether a line ends here. -/
def atLineEnd : List Char → Bool
  | [] => true
  | c :: _ => c == '\n'

/-- What a pattern's match is replaced by, and how many characters it covers. -/
structure Replacement where
  text : List Char
  covered : Nat
  deriving Repr

/-- The sign that comments out what follows it on its line. -/
def commentSign : List Char := ['#', ' ']

/-- The replacement of a match given by its three parts, each with its last character first. -/
def Replacement.ofParts (lead request trail : List Char) : Replacement :=
  ⟨lead.reverse ++ commentSign ++ request.reverse ++ trail.reverse,
    lead.length + request.length + trail.length⟩

/-- The second pattern, matched at the start of a line. -/
def helpLine? (s : List Char) : Option Replacement :=
  takeMost Text.isBlank (fun lead s =>
    takeRequest (fun request s =>
      takeMost Text.isBlank (fun trail s =>
        if atLineEnd s then some (.ofParts lead request trail) else none) [] s) [] s) [] s

/-- The first pattern, matched at the start of a line. -/
def commandLine? : List Char → Option Replacement
  | '%' :: _ => some ⟨commentSign ++ ['%'], 1⟩
  | _ => none

/-! ### Replacing every match -/

/-- Replaces the matches of a pattern that can only start at the start of a line.  `skip`
characters are still covered by the last match. -/
def substitute (pattern : List Char → Option Replacement) :
    (skip : Nat) → (atStart : Bool) → List Char → List Char
  | _, _, [] => []
  | skip + 1, _, c :: rest => substitute pattern skip (c == '\n') rest
  | 0, atStart, c :: rest =>
    match if atStart then pattern (c :: rest) else none with
    | some r => r.text ++ substitute pattern (r.covered - 1) (c == '\n') rest
    | none => c :: substitute pattern 0 (c == '\n') rest

/-- Replaces every match in a text. -/
def substituteAll (pattern : List Char → Option Replacement) (s : List Char) : List Char :=
  substitute pattern 0 true s

/-- The text with commands and help requests commented out. -/
def mask (s : List Char) : List Char :=
  substituteAll helpLine? (substituteAll commandLine? s)

/-! ### Prepared text -/

/-- The line of placeholder assignments put in front of a masked text. -/
def placeholders : String := "_ = 0 ; __ = 0 ; ___ = 0\n"

/-- The text for the analyzer, and how many of its lines are not the user's. -/
structure Prepared where
  text : String
  hidden : UInt32
  deriving DecidableEq, Repr

/-- The text as the analyzer gets it: as it is, or masked behind the placeholders. -/
def prepare (text : String) (allowMagic : Bool) : Prepared :=
  if allowMagic then ⟨placeholders ++ String.ofList (mask text.toList), 1⟩ else ⟨text, 0⟩

end LintHost.Masking
