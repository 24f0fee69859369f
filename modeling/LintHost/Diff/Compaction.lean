/-
LintHost/Diff/Compaction.lean

Compacting edits.  An insertion is slid over the kept elements in front of it as
long as it ends with the same elements as they do, and then over the kept elements
behind it as long as it starts with them.  Deletions stay where they are.
Insertions and deletions that come to lie side by side are put in order and joined.
First the deletions are looked at from the start to the end, then the insertions.
At last each run of deletions and insertions between kept elements becomes one
edit.  Sliding ends because no step makes the part that is slid over larger
(`load_lt`).
-/
import LintHost.Diff.Edit

namespace LintHost.Diff

variable {α : Type} [DecidableEq α]

/-- A place in a row of edits: those before it, last one first, the one at it, and those
after it. -/
structure Focus where
  before : List Edit
  here : Edit
  after : List Edit
  deriving Repr

/-- The number of edits in a row and of the elements in them. -/
def load : List Edit → Nat
  | [] => 0
  | e :: es => e.size + 1 + load es

@[simp] theorem load_cons (e : Edit) (es : List Edit) : load (e :: es) = e.size + 1 + load es :=
  rfl

/-- A row is lighter by the elements that its first edit loses. -/
theorem load_lt {e : Edit} {n : Nat} (es : List Edit) (hn : 0 < n) (h : n ≤ e.newCount) :
    load (e.shrink n :: es) < load (e :: es) := by
  simp only [load_cons, Edit.shrink, Edit.size]
  omega

/-! ### Towards the start -/

/-- How far an edit can slide over the kept elements in front of it. -/
def slack (new : List α) (kept here : Edit) : Nat :=
  if here.kind = .insert then
    sharedEnd (stretch new kept.new kept.newCount) (stretch new here.new here.newCount)
  else 0

theorem slack_le (new : List α) (kept here : Edit) : slack new kept here ≤ kept.newCount := by
  unfold slack
  split
  · exact Nat.le_trans (sharedEnd_le_left _ _) (length_stretch_le _ _ _)
  · exact Nat.zero_le _

/-- The edits behind a place after `n` kept elements have come to lie there. -/
def keepBehind (kept here : Edit) (n : Nat) : List Edit → List Edit
  | e :: after =>
    if e.isKeep then (e.back n).grow n :: after
    else .keep (kept.old + kept.oldCount - n) (here.new + here.newCount - n) n :: e :: after
  | [] => [.keep (kept.old + kept.oldCount - n) (here.new + here.newCount - n) n]

/-- Slides the edit at a place towards the start as far as it goes. -/
def slideUp (new : List α) (before : List Edit) (here : Edit) (after : List Edit) : Focus :=
  match before with
  | [] => ⟨[], here, after⟩
  | e :: rest =>
    if e.isKeep then
      let n := slack new e here
      if 0 < n then
        slideUp new (if e.size = 2 * n then rest else e.shrink n :: rest) (here.back n)
          (keepBehind e here n after)
      else if e.size = 0 then slideUp new rest here after
      else ⟨e :: rest, here, after⟩
    else if e.kind = here.kind then slideUp new rest (e.absorb here) after
    else slideUp new rest here (e :: after)
termination_by load before
decreasing_by
  · split
    · simp only [load_cons]; omega
    · exact load_lt rest ‹0 < n› (slack_le new e here)
  all_goals simp only [load_cons]; omega

/-! ### Towards the end -/

/-- How far an edit can slide over the kept elements behind it. -/
def slackBehind (new : List α) (here kept : Edit) : Nat :=
  if here.kind = .insert then
    sharedStart (stretch new kept.new kept.newCount) (stretch new here.new here.newCount)
  else 0

theorem slackBehind_le (new : List α) (here kept : Edit) :
    slackBehind new here kept ≤ kept.newCount := by
  unfold slackBehind
  split
  · exact Nat.le_trans (sharedStart_le_left _ _) (length_stretch_le _ _ _)
  · exact Nat.zero_le _

/-- The edits in front of a place after `n` kept elements have come to lie there. -/
def keepBefore (here kept : Edit) (n : Nat) : List Edit → List Edit
  | e :: before =>
    if e.isKeep then e.grow n :: before else .keep kept.old here.new n :: e :: before
  | [] => [.keep kept.old here.new n]

/-- Slides the edit at a place towards the end as far as it goes. -/
def slideDown (new : List α) (before : List Edit) (here : Edit) (after : List Edit) : Focus :=
  match after with
  | [] => ⟨before, here, []⟩
  | e :: rest =>
    if e.isKeep then
      let n := slackBehind new here e
      if 0 < n then
        slideDown new (keepBefore here e n before) (here.forth n)
          (if e.oldCount = n then rest else (e.forth n).shrink n :: rest)
      else if e.size = 0 then slideDown new before here rest
      else ⟨before, here, e :: rest⟩
    else if e.kind = here.kind then slideDown new before (here.absorb e) rest
    else slideDown new (e :: before) here rest
termination_by load after
decreasing_by
  · split
    · simp only [load_cons]; omega
    · exact load_lt (e := e.forth n) rest ‹0 < n› (slackBehind_le new here e)
  all_goals simp only [load_cons]; omega

/-! ### Whole rows -/

/-- Slides every edit of one kind to its last place, from the start to the end.  `fuel` bounds
the number of edits that are looked at. -/
def slideAll (new : List α) (kind : Kind) : (fuel : Nat) → (before after : List Edit) → List Edit
  | 0, before, after => before.reverse ++ after
  | _ + 1, before, [] => before.reverse
  | fuel + 1, before, e :: after =>
    if e.kind = kind then
      let up := slideUp new before e after
      let down := slideDown new up.before up.here up.after
      slideAll new kind fuel (down.here :: down.before) down.after
    else slideAll new kind fuel (e :: before) after

/-- A bound on the edits that are looked at while a row is gone through. -/
def bound (es : List Edit) : Nat :=
  (load es + 1) * (load es + 1)

/-- The row with all deletions, and then all insertions, slid to their places. -/
def slideBoth (new : List α) (es : List Edit) : List Edit :=
  let es := slideAll new .delete (bound es) [] es
  slideAll new .insert (bound es) [] es

/-! ### Joining -/

/-- One edit for a row of edits of one kind. -/
def joined : List Edit → Option Edit
  | [] => none
  | e :: es => some (es.foldl Edit.absorb e)

/-- One edit for a run of edits that are all kept, or all not. -/
def joinRun (run : List Edit) : List Edit :=
  let deleted := joined (run.filter (·.kind == .delete))
  let inserted := joined (run.filter (·.kind == .insert))
  match deleted, inserted with
  | some d, some i => [⟨.replace, d.old, i.new, d.oldCount, i.newCount⟩]
  | some d, none => [d]
  | none, some i => [i]
  | none, none => (joined run).toList

/-- The row with every run joined. -/
def joinRuns (es : List Edit) : List Edit :=
  (es.splitBy fun a b => a.isKeep == b.isKeep).flatMap joinRun

/-- The row in its compact form. -/
def compact (new : List α) (es : List Edit) : List Edit :=
  joinRuns (slideBoth new es)

end LintHost.Diff
