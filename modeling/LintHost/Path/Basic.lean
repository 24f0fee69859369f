/-
LintHost/Path/Basic.lean

File paths.  A path keeps the spelling it was written with, which is a text of the
system and so may be no text; its components are what it denotes.  Repeated and
trailing separators and inner `.` segments have no component, a leading `.` has one,
and `..` is kept as it is.  Paths are compared by components: first by kind (root, `.`,
`..`, names), names byte by byte.  Main statement: joining with an absolute path
forgets the left side (`join_of_isAbsolute`).
-/
import LintHost.Text.Lines
import LintHost.Text.Raw

namespace LintHost

/-- A file path, as written. -/
structure Path where ofRaw ::
  raw : RawText
  deriving DecidableEq, Repr, Inhabited

namespace Path

/-- The path that a text spells. -/
abbrev mk (s : String) : Path := ⟨s⟩

/-- What is shown for a path. -/
def text (p : Path) : String :=
  p.raw.text

/-- Whether a path is spelled by a text. -/
def isText (p : Path) : Bool :=
  p.raw.isText

/-- The byte between the segments of a path. -/
abbrev separator : UInt8 := 0x2F

/-- The byte that parts a name from its extension. -/
abbrev dot : UInt8 := 0x2E

/-- One step of a path. -/
inductive Component where
  /-- The root directory, at the start of an absolute path. -/
  | root
  /-- A `.` at the start of a relative path. -/
  | here
  /-- A `..` segment. -/
  | up
  /-- A named entry. -/
  | name (n : RawText)
  deriving DecidableEq, Repr, Inhabited

namespace Component

/-- The place of a component's kind in the order of components. -/
def rank : Component → Nat
  | root => 0
  | here => 1
  | up => 2
  | name _ => 3

/-- The segment that spells a component; the root is spelled by its separator. -/
def spelling : Component → RawText
  | root => "/"
  | here => "."
  | up => ".."
  | name n => n

/-- Components are ordered by kind, names byte by byte. -/
instance : Ord Component :=
  ⟨compareLex (compareOn rank) (compareOn spelling)⟩

end Component

/-! ### Components -/

/-- Whether a path starts at the root. -/
def isAbsolute (p : Path) : Bool :=
  p.raw.bytes.head? == some separator

/-- A segment that denotes no step: nothing between two separators, or a `.`. -/
def isIdle (segment : List UInt8) : Bool :=
  segment == [] || segment == [dot]

/-- The component of a segment that is not idle. -/
def Component.ofSegment (segment : List UInt8) : Component :=
  if segment = [dot, dot] then .up else .name ⟨segment⟩

/-- The first component of a path, when its spelling alone gives one. -/
def leading (segments : List (List UInt8)) (absolute : Bool) : List Component :=
  if absolute then [.root] else if segments.head? = some [dot] then [.here] else []

/-- What a path denotes, step by step. -/
def components (p : Path) : List Component :=
  let segments := Text.splitOn separator p.raw.bytes
  leading segments p.isAbsolute
    ++ (segments.filter fun s => !isIdle s).map Component.ofSegment

/-- Whether two paths have the same components. -/
def same (p q : Path) : Bool :=
  p.components == q.components

/-- Paths are ordered by their components, the first difference deciding. -/
def compare (p q : Path) : Ordering :=
  List.compareLex Ord.compare p.components q.components

/-! ### Joining -/

/-- Appends `q` to `p`.  An absolute `q` replaces `p`; otherwise one separator stands
between the two, unless `p` is empty or already ends in one. -/
def join (p q : Path) : Path :=
  if q.isAbsolute then q
  else if p.raw.bytes = [] ∨ p.raw.bytes.getLast? = some separator then ⟨p.raw ++ q.raw⟩
  else ⟨p.raw ++ ⟨[separator]⟩ ++ q.raw⟩

/-- The path that spells the given components one after the other. -/
def ofComponents (steps : List Component) : Path :=
  steps.foldl (fun p step => p.join ⟨step.spelling⟩) ⟨""⟩

theorem join_of_isAbsolute {p q : Path} (h : q.isAbsolute = true) : p.join q = q := by
  simp [join, h]

/-! ### Last component, parent -/

/-- The last component, if it is a name. -/
def fileName? (p : Path) : Option RawText :=
  match p.components.getLast? with
  | some (.name n) => some n
  | _ => none

/-- What follows the last dot of the file name.  A name whose only dot comes first has no
extension. -/
def extension? (p : Path) : Option RawText := do
  let n ← p.fileName?
  let reversed := n.bytes.reverse
  match reversed.dropWhile (· ≠ dot) with
  | _ :: _ :: _ => some ⟨(reversed.takeWhile (· ≠ dot)).reverse⟩
  | _ => none

/-- Splits a path into the spelling of its leading component and the rest. -/
def splitLeading (p : Path) : List UInt8 × List UInt8 :=
  match p.raw.bytes with
  | [] => ([], [])
  | b :: rest =>
    if b = separator then ([separator], rest)
    else if b = dot ∧ (rest = [] ∨ rest.head? = some separator) then ([dot], rest)
    else ([], b :: rest)

/-- The path without its last component, in its own spelling but for separators and idle
segments at the new end.  The root and the empty path have none. -/
def parent? (p : Path) : Option Path :=
  let (head, body) := p.splitLeading
  match (Text.splitOn separator body).reverse.dropWhile isIdle with
  | _ :: above =>
    some ⟨⟨head ++ Text.joinWith [separator] (above.dropWhile isIdle).reverse⟩⟩
  | [] => if head = [dot] then some ⟨""⟩ else none

/-- The parent directory, if the path names one. -/
def directory? (p : Path) : Option Path :=
  p.parent?.filter fun d => d.raw.bytes ≠ []

/-! ### Python sources -/

/-- Whether the extension is one of a Python source or stub. -/
def isPython (p : Path) : Bool :=
  p.extension? == some (.ofString "py") || p.extension? == some (.ofString "pyi")

end Path

end LintHost
