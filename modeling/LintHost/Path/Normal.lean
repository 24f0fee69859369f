/-
LintHost/Path/Normal.lean

Lexical normal form and lexical absolute form of a path.  Normalisation resolves
`.` and `..` without looking at the disk: a `..` cancels the name before it, is
dropped after the root and kept at the start of a relative path.  The absolute
form puts a relative path under a directory and drops only what has no
component, so that `..` stays for the file system to resolve.
Main fact: normalisation leaves no `.` (`here_not_mem_normalSteps`).
-/
import LintHost.Path.Basic

namespace LintHost.Path

/-! ### Normal form -/

/-- One component onto the normal form read so far, last component first. -/
def normalStep (stack : List Component) : Component → List Component
  | .here => stack
  | .up =>
    match stack with
    | .name _ :: below => below
    | .root :: below => .root :: below
    | stack => .up :: stack
  | step => step :: stack

/-- The components of the normal form, in order. -/
def normalSteps (steps : List Component) : List Component :=
  (steps.foldl normalStep []).reverse

/-- The path without `.`, and without `..` wherever a name or the root stands before it. -/
def normalize (p : Path) : Path :=
  ofComponents (normalSteps p.components)

theorem here_not_mem_normalStep {stack : List Component} (h : Component.here ∉ stack)
    (step : Component) : Component.here ∉ normalStep stack step := by
  cases step with
  | here => exact h
  | root => simp [normalStep, h]
  | name n => simp [normalStep, h]
  | up =>
    match stack, h with
    | [], _ => simp [normalStep]
    | .name _ :: below, h => exact fun hm => h (List.mem_cons_of_mem _ hm)
    | .root :: below, h => exact h
    | .here :: below, h => exact absurd List.mem_cons_self h
    | .up :: below, h => simpa [normalStep] using h

/-- The normal form has no `.` component. -/
theorem here_not_mem_normalSteps (steps : List Component) :
    Component.here ∉ normalSteps steps := by
  suffices ∀ stack : List Component, Component.here ∉ stack →
      Component.here ∉ steps.foldl normalStep stack by
    simpa [normalSteps] using this [] (by simp)
  induction steps with
  | nil => exact fun _ h => h
  | cons step steps ih => exact fun stack h => ih _ (here_not_mem_normalStep h step)

/-! ### Absolute form -/

/-- The path as seen from the directory `base`, in absolute form.  Exactly two leading
separators are kept as two, and a trailing one is kept. -/
def absolute (base p : Path) : Path :=
  let bytes := p.raw.bytes
  let steps := if p.components.head? = some .here then p.components.tail else p.components
  let doubled := bytes.take 2 = [separator, separator] ∧ bytes[2]? ≠ some separator
  let start : Path := if ¬p.isAbsolute then base else if doubled then ⟨"//"⟩ else ⟨""⟩
  let steps := if p.isAbsolute ∧ doubled then steps.tail else steps
  let all := steps.foldl (fun q step => q.join ⟨step.spelling⟩) start
  if bytes.getLast? = some separator then all.join ⟨""⟩ else all

end LintHost.Path
