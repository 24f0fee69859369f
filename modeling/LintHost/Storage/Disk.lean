/-
LintHost/Storage/Disk.lean

Disks as values.  A disk has directories and files at places, a place being the names
that lead to it from the root.  A path is followed segment by segment: each step but
the last has to be at a directory, `..` goes to the directory above, and a segment
that denotes no step stays where it is, but at a directory too.
Main facts: what is put at a place is found there and nothing else changes
(`get?_put_self`, `get?_put_of_ne`), and a new temporary file stands where there was
nothing (`get?_makeTemporary`).
-/
import LintHost.Path.Basic
import LintHost.Storage.Fault

namespace LintHost.Storage

/-- The names that lead from the root to a place. -/
abbrev Place := List RawText

/-- The path that spells a place. -/
def Place.path (p : Place) : Path :=
  ⟨⟨Path.separator :: Text.joinWith [Path.separator] (p.map (·.bytes))⟩⟩

/-- What is at a place. -/
inductive Entry where
  | directory
  | file (content : List UInt8) (mode : Nat)
  deriving DecidableEq, Repr, Inhabited

/-- A disk, as it is seen from a directory. -/
structure Disk where
  entries : List (Place × Entry) := []
  /-- The directory that relative paths start from. -/
  current : Place := []
  deriving Repr, Inhabited

namespace Disk

/-! ### Places -/

/-- What is at a place; the root is always a directory. -/
def get? (d : Disk) (p : Place) : Option Entry :=
  if p = [] then some .directory else d.entries.lookup p

/-- Removes what is at a place. -/
def drop (d : Disk) (p : Place) : Disk :=
  { d with entries := d.entries.filter fun e => e.1 ≠ p }

/-- Puts an entry at a place. -/
def put (d : Disk) (p : Place) (e : Entry) : Disk :=
  { d with entries := (p, e) :: (d.drop p).entries }

theorem lookup_filter_of_ne {p q : Place} (h : q ≠ p) (entries : List (Place × Entry)) :
    (entries.filter fun e => e.1 ≠ p).lookup q = entries.lookup q := by
  induction entries with
  | nil => rfl
  | cons e rest ih =>
    obtain ⟨r, e⟩ := e
    by_cases hr : r = p
    · subst hr
      rw [List.filter_cons_of_neg (by simp), ih, List.lookup_cons, beq_false_of_ne h]
    · rw [List.filter_cons_of_pos (by simpa using hr), List.lookup_cons, List.lookup_cons, ih]

theorem lookup_filter_self (p : Place) (entries : List (Place × Entry)) :
    (entries.filter fun e => e.1 ≠ p).lookup p = none := by
  simp [List.lookup_eq_none_iff]
  grind

theorem get?_drop_self {p : Place} (h : p ≠ []) (d : Disk) : (d.drop p).get? p = none := by
  simp only [get?, h, if_false, drop]
  exact lookup_filter_self p d.entries

theorem get?_drop_of_ne {p q : Place} (h : q ≠ p) (d : Disk) :
    (d.drop p).get? q = d.get? q := by
  simp only [get?, drop]
  rw [lookup_filter_of_ne h]

theorem get?_put_self {p : Place} (h : p ≠ []) (d : Disk) (e : Entry) :
    (d.put p e).get? p = some e := by
  simp [get?, put, h]

theorem get?_put_of_ne {p q : Place} (h : q ≠ p) (d : Disk) (e : Entry) :
    (d.put p e).get? q = d.get? q := by
  rw [← get?_drop_of_ne h d]
  simp [get?, put, List.lookup_cons, beq_false_of_ne h]

/-! ### Paths -/

/-- The longest name, in bytes. -/
def nameLimit : Nat := 255

/-- The number of bytes from which on a path is too long. -/
def pathLimit : Nat := 4096

/-- The place one segment further. -/
def step (d : Disk) (here : Place) (segment : List UInt8) : Except Fault Place :=
  match d.get? here with
  | none => .error .missing
  | some (.file _ _) => .error .notDirectory
  | some .directory =>
    if Path.isIdle segment then .ok here
    else if segment = [Path.dot, Path.dot] then .ok here.dropLast
    else if nameLimit < segment.length then .error .nameTooLong
    else .ok (here ++ [⟨segment⟩])

/-- The segments of a path that can be followed at all. -/
def segments (path : Path) : Except Fault (List (List UInt8)) :=
  if path.raw.hasNul then .error .nulInName
  else if path.raw.bytes = [] then .error .missing
  else if pathLimit ≤ path.raw.bytes.length then .error .nameTooLong
  else .ok (Text.splitOn Path.separator path.raw.bytes)

/-- The place where a path starts. -/
def start (d : Disk) (path : Path) : Place :=
  if path.isAbsolute then [] else d.current

/-- The place that a path leads to, whether or not there is anything. -/
def find (d : Disk) (path : Path) : Except Fault Place := do
  (← segments path).foldlM d.step (d.start path)

/-- The file at the end of a path. -/
def findFile (d : Disk) (path : Path) : Except Fault (Place × List UInt8 × Nat) := do
  let p ← d.find path
  match d.get? p with
  | none => throw .missing
  | some .directory => throw .isDirectory
  | some (.file content mode) => return (p, content, mode)

/-- The directory at the end of a path. -/
def findDirectory (d : Disk) (path : Path) : Except Fault Place := do
  let p ← d.find path
  match d.get? p with
  | none => throw .missing
  | some (.file _ _) => throw .notDirectory
  | some .directory => return p

/-! ### Looking -/

/-- The content of a file. -/
def read (d : Disk) (file : Path) : Except Fault (List UInt8) :=
  (d.findFile file).map fun f => f.2.1

/-- Whether there is anything at a path. -/
def isThere (d : Disk) (path : Path) : Bool :=
  match d.find path with
  | .error _ => false
  | .ok p => (d.get? p).isSome

/-- The permissions of directories. -/
def directoryMode : Nat := 0o755

/-- The permissions of new files. -/
def newMode : Nat := 0o600

/-- The permissions at a path. -/
def permissions (d : Disk) (path : Path) : Except Fault Nat := do
  match d.get? (← d.find path) with
  | none => throw .missing
  | some .directory => return directoryMode
  | some (.file _ mode) => return mode

/-! ### Changes -/

/-- Makes the missing directories along the segments of a path, from a place on. -/
def makeAlong (d : Disk) (here : Place) : List (List UInt8) → Except Fault Unit × Disk
  | [] => (.ok (), d)
  | segment :: rest =>
    match d.step here segment with
    | .error fault => (.error fault, d)
    | .ok next =>
      match d.get? next with
      | none => makeAlong (d.put next .directory) next rest
      | some .directory => makeAlong d next rest
      | some (.file _ _) => (.error (if rest = [] then .alreadyExists else .notDirectory), d)

/-- Makes a directory and those above it. -/
def makeDirectories (d : Disk) (directory : Path) : Except Fault Unit × Disk :=
  match segments directory with
  | .error fault => (.error fault, d)
  | .ok along => makeAlong d (d.start directory) along

/-- A name that no entry of a directory has, if one of the first few is free. -/
def freshName (d : Disk) (directory : Place) : RawText :=
  let candidates := (List.range (d.entries.length + 1)).map fun n =>
    RawText.ofString (".tmp" ++ toString n)
  (candidates.find? fun name => d.get? (directory ++ [name]) = none).getD ".tmp"

/-- Makes an empty file with a name of its own. -/
def makeTemporary (d : Disk) (directory : Path) : Except Fault Path × Disk :=
  match d.findDirectory directory with
  | .error fault => (.error fault, d)
  | .ok p =>
    let file := directory.join ⟨freshName d p⟩
    match d.find file with
    | .error fault => (.error fault, d)
    | .ok q =>
      match d.get? q with
      | some _ => (.error .alreadyExists, d)
      | none => (.ok file, d.put q (.file [] newMode))

theorem get?_makeTemporary {d e : Disk} {directory file : Path}
    (h : d.makeTemporary directory = (.ok file, e)) :
    ∃ q, d.find file = .ok q ∧ d.get? q = none ∧ e = d.put q (.file [] newMode) := by
  unfold makeTemporary at h
  split at h
  · simp at h
  · dsimp only at h
    split at h
    · simp at h
    · next q hq =>
      split at h
      · simp at h
      · next hn =>
        obtain ⟨hfile, rfl⟩ := Prod.mk.inj h
        cases hfile
        exact ⟨q, hq, hn, rfl⟩

/-- Where no temporary file can be made, nothing is. -/
theorem makeTemporary_error {d e : Disk} {directory : Path} {fault : Fault}
    (h : d.makeTemporary directory = (.error fault, e)) : e = d := by
  unfold makeTemporary at h
  split at h
  · exact (Prod.mk.inj h).2.symm
  · dsimp only at h
    split at h
    · exact (Prod.mk.inj h).2.symm
    · split at h
      · exact (Prod.mk.inj h).2.symm
      · cases (Prod.mk.inj h).1

/-- Changes a file by the place, content and permissions that it has. -/
def change (d : Disk) (file : Path) (f : List UInt8 → Nat → Entry) : Except Fault Unit × Disk :=
  match d.findFile file with
  | .error fault => (.error fault, d)
  | .ok (p, content, mode) => (.ok (), d.put p (f content mode))

/-- Writes the content of a file. -/
def write (d : Disk) (file : Path) (content : List UInt8) : Except Fault Unit × Disk :=
  d.change file fun _ mode => .file content mode

/-- Sets the permissions of a file. -/
def setPermissions (d : Disk) (file : Path) (mode : Nat) : Except Fault Unit × Disk :=
  d.change file fun content _ => .file content mode

/-- Removes a file, if it is there. -/
def remove (d : Disk) (file : Path) : Disk :=
  match d.findFile file with
  | .error _ => d
  | .ok (p, _) => d.drop p

/-- The place for a file under a path.  Its directory has to be there, and its name has to
be the last segment. -/
def placeFor (d : Disk) (path : Path) : Except Fault Place := do
  if path.raw.hasNul then throw .invalidArgument
  let reversed := (← segments path).reverse
  match reversed.dropWhile (· = []) with
  | [] => throw .busy
  | name :: above =>
    let p ← d.step (← above.reverse.foldlM d.step (d.start path)) name
    if name = [Path.dot] ∨ name = [Path.dot, Path.dot] then throw .busy
    if reversed.head? = some [] then throw .notDirectory
    if d.get? p = some .directory then throw .isDirectory
    return p

/-- Puts a file in the place of another path. -/
def rename (d : Disk) (file target : Path) : Except Fault Unit × Disk :=
  match d.findFile file, d.placeFor target with
  | .error fault, _ => (.error fault, d)
  | _, .error fault => (.error fault, d)
  | .ok (p, content, mode), .ok q => (.ok (), (d.drop p).put q (.file content mode))

end Disk

end LintHost.Storage
