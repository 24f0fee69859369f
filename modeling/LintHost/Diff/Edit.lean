/-
LintHost/Diff/Edit.lean

Edits between two sequences.  An edit covers a stretch of the old sequence and a
stretch of the new one: it keeps a stretch that both have, deletes from the old one,
inserts from the new one, or replaces one stretch by another.
-/

namespace LintHost.Diff

/-- What an edit does. -/
inductive Kind where
  | keep
  | delete
  | insert
  | replace
  deriving DecidableEq, Repr, Inhabited

/-- An edit: where its stretches start, and how long they are. -/
structure Edit where
  kind : Kind
  old : Nat
  new : Nat
  oldCount : Nat
  newCount : Nat
  deriving DecidableEq, Repr, Inhabited

namespace Edit

/-- Keeps `n` elements. -/
def keep (old new n : Nat) : Edit :=
  ⟨.keep, old, new, n, n⟩

/-- Deletes `n` elements. -/
def delete (old new n : Nat) : Edit :=
  ⟨.delete, old, new, n, 0⟩

/-- Inserts `n` elements. -/
def insert (old new n : Nat) : Edit :=
  ⟨.insert, old, new, 0, n⟩

/-- Whether an edit keeps its stretch. -/
def isKeep (e : Edit) : Bool :=
  e.kind == .keep

/-- The number of elements in both stretches. -/
def size (e : Edit) : Nat :=
  e.oldCount + e.newCount

/-- The edit moved towards the start. -/
def back (e : Edit) (n : Nat) : Edit :=
  { e with old := e.old - n, new := e.new - n }

/-- The edit moved towards the end. -/
def forth (e : Edit) (n : Nat) : Edit :=
  { e with old := e.old + n, new := e.new + n }

/-- Both stretches longer at their ends. -/
def grow (e : Edit) (n : Nat) : Edit :=
  { e with oldCount := e.oldCount + n, newCount := e.newCount + n }

/-- Both stretches shorter at their ends. -/
def shrink (e : Edit) (n : Nat) : Edit :=
  { e with oldCount := e.oldCount - n, newCount := e.newCount - n }

/-- The edit with the stretches of another one added to its own. -/
def absorb (e f : Edit) : Edit :=
  { e with oldCount := e.oldCount + f.oldCount, newCount := e.newCount + f.newCount }

end Edit

/-! ### Stretches -/

variable {α : Type}

/-- The elements of a stretch. -/
def stretch (s : List α) (start count : Nat) : List α :=
  (s.drop start).take count

theorem length_stretch_le (s : List α) (start count : Nat) :
    (stretch s start count).length ≤ count := by
  simp only [stretch, List.length_take]
  omega

variable [DecidableEq α]

/-- The number of elements that two sequences have in common at their starts. -/
def sharedStart : List α → List α → Nat
  | a :: s, b :: t => if a = b then sharedStart s t + 1 else 0
  | _, _ => 0

/-- The number of elements that two sequences have in common at their ends. -/
def sharedEnd (s t : List α) : Nat :=
  sharedStart s.reverse t.reverse

theorem sharedStart_le_left (s t : List α) : sharedStart s t ≤ s.length := by
  fun_induction sharedStart s t <;> simp_all

theorem sharedStart_le_right (s t : List α) : sharedStart s t ≤ t.length := by
  fun_induction sharedStart s t <;> simp_all

theorem sharedEnd_le_left (s t : List α) : sharedEnd s t ≤ s.length := by
  simpa [sharedEnd] using sharedStart_le_left s.reverse t.reverse

theorem sharedEnd_le_right (s t : List α) : sharedEnd s t ≤ t.length := by
  simpa [sharedEnd] using sharedStart_le_right s.reverse t.reverse

end LintHost.Diff
