/-
LintHost/Toml/Document.lean

Documents.  A document is a row of statements, each of which is ended by a line end
outside brackets: assignments, and headers under which assignments stand.  What goes
before a statement, blank lines and comments, is part of it.  Together the statements
make a tree of tables, which keeps what is needed to write the document again.  The only
edit that there is sets a truth value in the root table.
Main facts: the pieces of a document put together are its tokens
(`joinWith_splitStatements`).
-/
import LintHost.Toml.Reader

namespace LintHost.Toml

/-! ### Statements -/

/-- What a document says at one place. -/
inductive Statement where
  /-- A header: what stands before its brackets, whether they are double, the path between them,
  and what stands behind them. -/
  | header (lead : List Token) (repeated : Bool) (path : List Key) (tail : List Token)
  /-- An assignment: a path, and a value with all that stands behind the equals sign. -/
  | assignment (path : List Key) (right : Literal)
  deriving Inhabited

namespace Statement

/-- Whether tokens are blanks and maybe a comment. -/
def isTail (ts : List Token) : Bool :=
  match ts.dropWhile Token.isBlank with
  | [] | [.comment _] => true
  | _ => false

/-- The header after its opening brackets. -/
def readHeader (lead : List Token) (repeated : Bool) (ts : List Token) : Option Statement := do
  let (inner, ts) ← Text.splitFirst? (.char ']') ts
  let tail ← if repeated then
      match ts with
      | .char ']' :: ts => some ts
      | _ => none
    else some ts
  if !isTail tail then none
  return .header lead repeated (← readPath Token.isBlank inner) tail

/-- The assignment with the given tokens on its two sides. -/
def readAssignment (label right : List Token) : Option Statement := do
  let path ← readPath Token.isGap label
  let (before, ts) := takeKind Token.isBlank right
  let (literal, tail) ← readValue maxDepth ts
  if !isTail tail then none
  return .assignment path ⟨literal.value, before ++ literal.tokens ++ tail⟩

/-- The statement with the given tokens. -/
def read (ts : List Token) : Option Statement :=
  let (lead, rest) := takeKind Token.isGap ts
  match rest with
  | .char '[' :: .char '[' :: rest => readHeader lead true rest
  | .char '[' :: rest => readHeader lead false rest
  | rest => do
    let (label, right) ← Text.splitFirst? (.char '=') rest
    readAssignment (lead ++ label) right

end Statement

/-! ### Cutting into statements -/

/-- The number of open brackets after a token. -/
def nesting (depth : Nat) : Token → Nat
  | .char '[' | .char '{' => depth + 1
  | .char ']' | .char '}' => depth - 1
  | _ => depth

/-- The tokens cut at the line ends that end a statement.  `begun` says that a statement has
begun, and `depth` is the number of its open brackets. -/
def splitStatements : (begun : Bool) → (depth : Nat) → List Token → List (List Token)
  | _, _, [] => [[]]
  | begun, depth, t :: ts =>
    if t = .newline ∧ begun = true ∧ depth = 0 then [] :: splitStatements false 0 ts
    else Text.consFirst t (splitStatements (begun || !t.isGap) (nesting depth t) ts)

theorem splitStatements_ne_nil (begun : Bool) (depth : Nat) (ts : List Token) :
    splitStatements begun depth ts ≠ [] := by
  cases ts with
  | nil => simp [splitStatements]
  | cons t ts =>
    simp only [splitStatements]
    split
    · simp
    · cases splitStatements (begun || !t.isGap) (nesting depth t) ts <;> simp [Text.consFirst]

/-- The pieces with a line end between each two are the tokens. -/
theorem joinWith_splitStatements (begun : Bool) (depth : Nat) (ts : List Token) :
    Text.joinWith [.newline] (splitStatements begun depth ts) = ts := by
  induction ts generalizing begun depth with
  | nil => rfl
  | cons t ts ih =>
    simp only [splitStatements]
    split
    · next h =>
      have := ih false 0
      cases hp : splitStatements false 0 ts with
      | nil => exact absurd hp (splitStatements_ne_nil _ _ ts)
      | cons piece pieces =>
        rw [hp] at this
        simp [Text.joinWith, this, h.1]
    · have := ih (begun || !t.isGap) (nesting depth t)
      cases hp : splitStatements (begun || !t.isGap) (nesting depth t) ts with
      | nil => exact absurd hp (splitStatements_ne_nil _ _ ts)
      | cons piece pieces =>
        rw [hp] at this
        cases pieces with
        | nil => simpa [Text.consFirst, Text.joinWith] using this
        | cons next more =>
          simp only [Text.joinWith, Text.consFirst, List.cons_append] at this ⊢
          rw [this]

/-! ### Documents -/

/-- A document: the members of its root table, and what stands behind the last statement. -/
structure Document where
  members : Members
  rest : List Token
  deriving Inhabited

namespace Document

/-- Where building a document stands: the header met last, the number of headers, and the
members of the root table so far. -/
structure State where
  header : List Key := []
  place : Nat := 0
  members : Members := []

/-- Adds what a statement says. -/
def State.add (st : State) : Statement → Option State
  | .header lead repeated path tail => do
    let members ← openTable repeated ⟨st.place, lead, tail⟩ path st.members
    return ⟨path, st.place + 1, members⟩
  | .assignment path right => do
    let members ← within st.header (define right.value right.tokens path) st.members
    return { st with members }

/-- The document with the given pieces.  The last piece may be no statement. -/
def ofPieces (pieces : List (List Token)) : Option Document := do
  let last := pieces.getLast?.getD []
  let (pieces, rest) := if last.all Token.isGap then (pieces.dropLast, last) else (pieces, [])
  let statements ← pieces.mapM Statement.read
  let st ← statements.foldlM State.add {}
  return ⟨st.members, rest⟩

/-- The text without a byte order mark. -/
def withoutMark : List Char → List Char
  | '\uFEFF' :: s => s
  | s => s

/-- Reads a document, if it is one and sets nothing up twice. -/
def read (s : List Char) : Option Document := do
  ofPieces (splitStatements false 0 (← tokens (withoutMark s)))

/-- What a document says. -/
def values (d : Document) : List (String × Value) :=
  valuesOf d.members

/-- The tokens of a document. -/
def tokens (d : Document) : List Token :=
  bodyTokens d.members ++ (sections d.members).flatMap Section.tokens ++ d.rest

/-- The text of a document. -/
def print (d : Document) : List Char :=
  written d.tokens

end Document

/-- The members of the root table of a text. -/
def membersOf? (s : List Char) : Option (List (String × Value)) :=
  (Document.read s).map Document.values

/-! ### Setting a truth value

A key that is there keeps its spelling, its place among the values and what stands around it;
whatever it named gives way to the truth value.  A key that is new comes after the last value. -/

/-- The tokens of a truth value with a space before it. -/
def flagTokens (on : Bool) : List Token :=
  plainTokens (if on then " true" else " false")

/-- A truth value as a member. -/
def Node.flag (on : Bool) : Node :=
  .value (.boolean on) (flagTokens on)

/-- The members with a truth value under the given name. -/
def setFlag (name : String) (on : Bool) : Members → Members
  | [] => [(Key.plain name, Node.flag on)]
  | (key, node) :: rest =>
    if key.name = name then (key, Node.flag on) :: rest else (key, node) :: setFlag name on rest

/-- The document with a truth value for a key of its root table. -/
def Document.setRoot (name : String) (on : Bool) (d : Document) : Document :=
  { d with members := setFlag name on d.members }

end LintHost.Toml
