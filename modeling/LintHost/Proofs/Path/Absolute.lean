/-
LintHost/Proofs/Path/Absolute.lean

Absolute forms beside normal forms.  Normalising twice is normalising once
(`IsNormal.normalize_eq`).  Seen from an absolute directory every path has an absolute
form (`isAbsolute_absolute`), whose steps are those of the directory followed by its
own, or its own alone if it is absolute already (`components_absolute`); so taking the
absolute form again denotes the same (`same_absolute_absolute`).  An absolute form
keeps the `..` that a normal form resolves.

Main result: absolute paths without a `..` have the same normal form only if they
denote the same (`normalize_eq_iff_same`).
-/
import LintHost.Proofs.Path.Canonical

namespace LintHost.Path

open Component

/-! ### Normal forms once more -/

/-- Whether a stack of steps, the last one first, is what normalising piles up: each step stands
where it was put. -/
def Piled : List Component → Prop
  | [] => True
  | c :: below => normalStep below c = c :: below ∧ Piled below

theorem Piled.normalStep {stack : List Component} (h : Piled stack) (c : Component) :
    Piled (normalStep stack c) := by
  cases c with
  | root => exact ⟨rfl, h⟩
  | here => exact h
  | name n => exact ⟨rfl, h⟩
  | up =>
    match stack, h with
    | [], _ => exact ⟨rfl, trivial⟩
    | .name _ :: below, h => exact h.2
    | .root :: below, h => exact h
    | .here :: below, h => exact ⟨rfl, h⟩
    | .up :: below, h => exact ⟨rfl, h⟩

theorem piled_foldl {stack : List Component} (h : Piled stack) (steps : List Component) :
    Piled (steps.foldl Path.normalStep stack) := by
  induction steps generalizing stack with
  | nil => exact h
  | cons c steps ih => exact ih (h.normalStep c)

/-- What has been piled up is piled up in the same way again. -/
theorem Piled.foldl_reverse {stack : List Component} (h : Piled stack) :
    stack.reverse.foldl Path.normalStep [] = stack := by
  induction stack with
  | nil => rfl
  | cons c below ih =>
    rw [List.reverse_cons, List.foldl_append, ih h.2]
    exact h.1

theorem normalSteps_normalSteps (steps : List Component) :
    normalSteps (normalSteps steps) = normalSteps steps := by
  have h : Piled (steps.foldl Path.normalStep []) := piled_foldl (show Piled [] from trivial) steps
  show ((steps.foldl Path.normalStep []).reverse.foldl Path.normalStep []).reverse = _
  rw [h.foldl_reverse]
  rfl

/-- **A normal form is its own normal form.** -/
theorem IsNormal.normalize_eq {p : Path} (hp : p.IsNormal) : p.normalize = p := by
  obtain ⟨q, rfl⟩ := hp
  rw [normalize, components_normalize, normalSteps_normalSteps]
  rfl

/-- The normal form depends on the steps alone. -/
theorem normalize_eq_of_same {p q : Path} (h : p.same q = true) : p.normalize = q.normalize := by
  rw [same, beq_iff_eq] at h
  rw [normalize, normalize, h]

/-! ### Absolute paths -/

theorem root_not_mem_body (p : Path) : Component.root ∉ p.body := fun h =>
  (spelled_of_mem_body h).no_separator (by decide)

theorem here_not_mem_body (p : Path) : Component.here ∉ p.body := fun h =>
  absurd (spelled_of_mem_body h).not_idle (by decide)

theorem components_of_isAbsolute {p : Path} (h : p.isAbsolute = true) :
    p.components = .root :: p.body := by
  rw [components_eq, leading, if_pos h]
  rfl

/-- A relative path may have a `.` in front of its segments. -/
theorem components_of_relative {p : Path} (h : p.isAbsolute = false) :
    p.components = .here :: p.body ∨ p.components = p.body := by
  rw [components_eq, h, leading, if_neg Bool.false_ne_true]
  split
  · exact .inl rfl
  · exact .inr rfl

/-- A path is absolute exactly if its first step is the root. -/
theorem isAbsolute_iff {p : Path} : p.isAbsolute = true ↔ p.components.head? = some .root := by
  cases h : p.isAbsolute with
  | true => simp [components_of_isAbsolute h]
  | false =>
    have hne : p.body.head? ≠ some .root := fun e => root_not_mem_body p (List.mem_of_head? e)
    rcases components_of_relative h with e | e
    · simp [e]
    · simp [e, hne]

/-- The steps of a relative path but for a leading `.` are those of its segments. -/
theorem steps_of_relative {p : Path} (h : p.isAbsolute = false) :
    (if p.components.head? = some .here then p.components.tail else p.components) = p.body := by
  have hne : p.body.head? ≠ some .here := fun e => here_not_mem_body p (List.mem_of_head? e)
  rcases components_of_relative h with e | e
  · rw [e, List.head?_cons, if_pos rfl, List.tail_cons]
  · rw [e, if_neg hne]

/-- A separator at the end of a path adds no step. -/
theorem components_join_empty {p : Path} (h : p.raw.bytes ≠ []) :
    (p.join ⟨""⟩).components = p.components := by
  rw [components_join (q := ⟨""⟩) rfl h]
  exact List.append_nil _

theorem bytes_ne_nil {p : Path} {c : Component} {steps : List Component}
    (h : p.components = c :: steps) : p.raw.bytes ≠ [] := by
  intro he
  rw [eq_empty he] at h
  cases h

/-! ### Absolute forms -/

variable {base p : Path}

/-- The steps of an absolute form: those of the directory stand in front of those of a relative
path. -/
theorem components_absolute (hbase : base.isAbsolute = true) (p : Path) :
    (absolute base p).components
      = if p.isAbsolute then p.components else base.components ++ p.body := by
  -- a separator at the end of the text is put back at last, and adds no step
  suffices ∀ all : Path, all.components
        = (if p.isAbsolute then p.components else base.components ++ p.body) →
      (if p.raw.bytes.getLast? = some separator then all.join ⟨""⟩ else all).components
        = if p.isAbsolute then p.components else base.components ++ p.body by
    refine this _ ?_
    have hbody : ∀ c ∈ p.body, c.Spelled := fun c hc => spelled_of_mem_body hc
    cases h : p.isAbsolute with
    | false =>
      simp only [steps_of_relative h, Bool.false_eq_true, not_false_eq_true, if_true, if_false,
        false_and]
      exact components_foldl_join base hbody
    | true =>
      have hsteps : p.components = .root :: p.body := components_of_isAbsolute h
      simp only [hsteps, List.head?_cons, Option.some.injEq, reduceCtorEq, not_true_eq_false,
        if_false, if_true, true_and]
      split
      · exact components_foldl_join ⟨"//"⟩ hbody
      · exact components_foldl_join ⟨"/"⟩ hbody
  intro all hall
  split
  · have hne : all.raw.bytes ≠ [] := by
      cases h : p.isAbsolute with
      | true =>
        rw [h, if_pos rfl, components_of_isAbsolute h] at hall
        exact bytes_ne_nil hall
      | false =>
        rw [h, if_neg Bool.false_ne_true, components_of_isAbsolute hbase] at hall
        exact bytes_ne_nil hall
    rw [components_join_empty hne, hall]
  · exact hall

theorem isAbsolute_absolute (hbase : base.isAbsolute = true) (p : Path) :
    (absolute base p).isAbsolute = true := by
  rw [isAbsolute_iff, components_absolute hbase]
  split
  · next h => exact isAbsolute_iff.1 h
  · rw [components_of_isAbsolute hbase]
    rfl

/-- The absolute form of an absolute form denotes the same. -/
theorem same_absolute_absolute (hbase : base.isAbsolute = true) (p : Path) :
    (absolute base (absolute base p)).same (absolute base p) = true := by
  rw [same, beq_iff_eq, components_absolute hbase, if_pos (isAbsolute_absolute hbase p)]

/-! ### Paths without `..` -/

/-- Names are piled up as they come. -/
theorem foldl_normalStep_names {steps : List Component} (hup : Component.up ∉ steps)
    (hhere : Component.here ∉ steps) (stack : List Component) :
    steps.foldl Path.normalStep stack = steps.reverse ++ stack := by
  induction steps generalizing stack with
  | nil => rfl
  | cons c steps ih =>
    rw [List.mem_cons, not_or] at hup hhere
    have hc : Path.normalStep stack c = c :: stack := by
      cases c with
      | up => exact absurd rfl hup.1
      | here => exact absurd rfl hhere.1
      | root | name n => rfl
    rw [List.foldl_cons, hc, ih hup.2 hhere.2, List.reverse_cons, List.append_assoc]
    rfl

/-- Without a `..` an absolute path has its own steps as its normal form. -/
theorem normalSteps_components (habs : p.isAbsolute = true) (hup : Component.up ∉ p.components) :
    normalSteps p.components = p.components := by
  have hhere : Component.here ∉ p.components := by
    rw [components_of_isAbsolute habs, List.mem_cons, not_or]
    exact ⟨by simp, here_not_mem_body p⟩
  rw [normalSteps, foldl_normalStep_names hup hhere, List.append_nil, List.reverse_reverse]

/-- **Absolute paths without a `..`** have the same normal form exactly if they denote the same. -/
theorem normalize_eq_iff_same {q : Path} (hp : p.isAbsolute = true) (hq : q.isAbsolute = true)
    (hpup : Component.up ∉ p.components) (hqup : Component.up ∉ q.components) :
    p.normalize = q.normalize ↔ p.same q = true := by
  refine ⟨fun h => ?_, normalize_eq_of_same⟩
  have hsteps := congrArg components h
  rw [components_normalize, components_normalize, normalSteps_components hp hpup,
    normalSteps_components hq hqup] at hsteps
  rw [same, hsteps, beq_self_eq_true]

end LintHost.Path
