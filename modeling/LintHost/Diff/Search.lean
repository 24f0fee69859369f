/-
LintHost/Diff/Search.lean

Finding the edits between two sequences.  What both have in common at the start and
at the end is kept.  Between them, if one side is empty, the other is deleted or
inserted; else a point in the middle of a shortest way from one sequence to the
other cuts both into two parts, each of which is compared on its own.  The point is
found by following furthest reaching ways from both ends at once, diagonal by
diagonal, until they meet.
-/
import LintHost.Diff.Edit

namespace LintHost.Diff

variable {α : Type} [DecidableEq α]

/-! ### The middle of a shortest way -/

/-- How far the ways on each diagonal have come from the start and from the end. -/
structure Reach where
  fromStart : Array Nat
  fromEnd : Array Nat

/-- The two sequences that are compared, from the start and from the end. -/
structure Sides (α : Type) where
  old : Array α
  new : Array α
  oldBack : Array α := old.reverse
  newBack : Array α := new.reverse

/-- How many elements two sequences have in common from a place in each of them on. -/
def run (a b : Array α) (x y : Nat) : Nat :=
  if h : x < a.size ∧ y < b.size then
    if a[x] = b[y] then run a b (x + 1) (y + 1) + 1 else 0
  else 0
termination_by a.size - x

namespace Sides

/-- The diagonal on which the ends of the two sequences lie. -/
def corner (s : Sides α) : Int :=
  (s.old.size : Int) - s.new.size

/-- The place of a diagonal in an array. -/
def place (s : Sides α) (k : Int) : Nat :=
  (k + s.old.size + s.new.size + 1).toNat

/-- The number of places for diagonals. -/
def places (s : Sides α) : Nat :=
  2 * (s.old.size + s.new.size) + 4

/-- How far a way on diagonal `k` is after `d` steps off the diagonals, before it follows `k`. -/
def enter (s : Sides α) (reach : Array Nat) (d : Nat) (k : Int) : Nat :=
  let below := reach.getD (s.place (k - 1)) 0
  let above := reach.getD (s.place (k + 1)) 0
  if k = -(d : Int) ∨ (k ≠ d ∧ below < above) then above else below + 1

/-- Whether the ways that have come to these places have met. -/
def haveMet (s : Sides α) (x : Nat) (reach : Array Nat) (k : Int) : Bool :=
  s.old.size ≤ x + reach.getD (s.place (s.corner - k)) 0

/-- Whether diagonal `k` has been reached after `d` steps from the other end. -/
def isReached (s : Sides α) (d : Int) (k : Int) : Bool :=
  (k - s.corner).natAbs ≤ d

/-- Follows diagonal `k` from the start.  The result is an error if a way from the end is met:
the point where the diagonal was entered. -/
def stepForth (s : Sides α) (d : Nat) (reach : Reach) (k : Int) : Except (Nat × Nat) Reach := do
  let x := s.enter reach.fromStart d k
  let y := ((x : Int) - k).toNat
  let far := x + run s.old s.new x y
  if s.corner % 2 ≠ 0 ∧ s.isReached ((d : Int) - 1) k ∧ s.haveMet far reach.fromEnd k then
    throw (x, y)
  return { reach with fromStart := reach.fromStart.setIfInBounds (s.place k) far }

/-- Follows diagonal `k` from the end.  The result is an error if a way from the start is met:
the point that was reached. -/
def stepBack (s : Sides α) (d : Nat) (reach : Reach) (k : Int) : Except (Nat × Nat) Reach := do
  let x := s.enter reach.fromEnd d k
  let y := ((x : Int) - k).toNat
  let far := x + run s.oldBack s.newBack x y
  if s.corner % 2 = 0 ∧ s.isReached d k ∧ s.haveMet far reach.fromStart k then
    throw (s.old.size - far, s.new.size - ((far : Int) - k).toNat)
  return { reach with fromEnd := reach.fromEnd.setIfInBounds (s.place k) far }

/-- The diagonals that can be reached in `d` steps, the highest one first. -/
def diagonals (d : Nat) : List Int :=
  (List.range (d + 1)).map fun (i : Nat) => (d : Int) - 2 * i

/-- One more step from both ends. -/
def round (s : Sides α) (reach : Reach) (d : Nat) : Except (Nat × Nat) Reach := do
  let reach ← (diagonals d).foldlM (s.stepForth d) reach
  (diagonals d).foldlM (s.stepBack d) reach

/-- A point in the middle of a shortest way. -/
def middle? (s : Sides α) : Option (Nat × Nat) :=
  let none' := Array.replicate s.places 0
  let rounds := List.range ((s.old.size + s.new.size + 1) / 2 + 1)
  match rounds.foldlM s.round ⟨none', none'⟩ with
  | .error point => some point
  | .ok _ => none

end Sides

/-! ### Edits -/

/-- The edit that keeps `n` elements, unless there are none. -/
def kept (old new n : Nat) : List Edit :=
  if n = 0 then [] else [.keep old new n]

/-- A point that cuts two sequences into two pairs of parts, each smaller than the whole. -/
structure Cut (n m : Nat) where
  x : Nat
  y : Nat
  x_le : x ≤ n
  y_le : y ≤ m
  pos : 0 < x + y
  lt : x + y < n + m

/-- The cut at a point, if it is one. -/
def Cut.ofPoint? (n m : Nat) (p : Nat × Nat) : Option (Cut n m) :=
  if h : p.1 ≤ n ∧ p.2 ≤ m ∧ 0 < p.1 + p.2 ∧ p.1 + p.2 < n + m then
    some ⟨p.1, p.2, h.1, h.2.1, h.2.2.1, h.2.2.2⟩
  else none

/-- The edits that turn `old` into `new`, of which `i` and `j` elements stand before them. -/
def editsFrom (i j : Nat) (old new : List α) : List Edit :=
  let p := sharedStart old new
  let s := sharedEnd (old.drop p) (new.drop p)
  let a := (old.drop p).take (old.length - p - s)
  let b := (new.drop p).take (new.length - p - s)
  let i' := i + p
  let j' := j + p
  let between :=
    if a = [] ∧ b = [] then []
    else if b = [] then [Edit.delete i' j' a.length]
    else if a = [] then [Edit.insert i' j' b.length]
    else
      let sides : Sides α := { old := a.toArray, new := b.toArray }
      match sides.middle?.bind (Cut.ofPoint? a.length b.length) with
      | some cut =>
        editsFrom i' j' (a.take cut.x) (b.take cut.y)
          ++ editsFrom (i' + cut.x) (j' + cut.y) (a.drop cut.x) (b.drop cut.y)
      | none => [.delete i' j' a.length, .insert (i' + a.length) j' b.length]
  kept i j p ++ between ++ kept (i' + a.length) (j' + b.length) s
termination_by old.length + new.length
decreasing_by
  · have := cut.lt
    simp only [a, b, List.length_take, List.length_drop] at this ⊢
    omega
  · have := cut.pos
    have := cut.lt
    have := cut.x_le
    have := cut.y_le
    simp only [a, b, List.length_take, List.length_drop] at *
    omega

/-- The edits that turn one sequence into another. -/
def edits (old new : List α) : List Edit :=
  editsFrom 0 0 old new

end LintHost.Diff
