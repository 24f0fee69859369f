/-
LintHost/Proofs/Path/Walks.lean

What a path denotes in a tree of directories without links.  A place is given by the
names on the way up to the root, its own name first.  A path that is walked from a place
leads to a place (`walk`); a joined path leads where its two sides lead one after the
other (`walk_join`), and a normal form leads where the path does (`walk_normalize`).  The
steps of a normal form are names behind the root, or behind some `..`
(`exists_components_normalize`), so that the places it leads to tell what it is.

Main results: two paths have the same normal form exactly if they denote the same file
from everywhere (`normalize_eq_iff_sameFile`), which is to say that no absolute directory
in front of them tells them apart (`normalize_eq_iff_join`); and normal forms can be taken
before joining (`normalize_join`).
-/
import LintHost.Proofs.Path.Absolute

namespace LintHost.Path

open Component

/-! ### Places -/

/-- The place that one step leads to.  The root is its own parent. -/
def Component.follow (place : List RawText) : Component → List RawText
  | .root => []
  | .here => place
  | .up => place.tail
  | .name n => n :: place

/-- The place that a path leads to from another one. -/
def walk (p : Path) (place : List RawText) : List RawText :=
  p.components.foldl follow place

/-- Whether two paths lead to the same place from everywhere. -/
def SameFile (p q : Path) : Prop :=
  ∀ place, p.walk place = q.walk place

theorem walk_of_isAbsolute {p : Path} (h : p.isAbsolute = true) (place other : List RawText) :
    p.walk place = p.walk other := by
  rw [walk, walk, components_of_isAbsolute h]
  rfl

/-- A leading `.` leads nowhere else. -/
theorem walk_of_relative {p : Path} (h : p.isAbsolute = false) (place : List RawText) :
    p.walk place = p.body.foldl follow place := by
  rcases components_of_relative h with e | e
  · rw [walk, e]
    rfl
  · rw [walk, e]

/-- **A joined path leads where its two sides lead one after the other.** -/
theorem walk_join (p q : Path) (place : List RawText) :
    (p.join q).walk place = q.walk (p.walk place) := by
  cases hq : q.isAbsolute with
  | true => rw [join_of_isAbsolute hq, walk_of_isAbsolute hq]
  | false =>
    by_cases hp : p.raw.bytes = []
    · rw [eq_empty hp, empty_join]
      rfl
    · rw [walk_of_relative hq, walk, components_join hq hp, List.foldl_append]
      rfl

/-! ### What normalising keeps -/

/-- One more step onto a stack leads on from where the stack leads. -/
theorem foldl_follow_normalStep (stack : List Component) (c : Component) (place : List RawText) :
    (normalStep stack c).reverse.foldl follow place
      = follow (stack.reverse.foldl follow place) c := by
  have pushed : (c :: stack).reverse.foldl follow place
      = follow (stack.reverse.foldl follow place) c := by
    rw [List.reverse_cons, List.foldl_append]
    rfl
  cases c with
  | here => rfl
  | root | name n => exact pushed
  | up =>
    -- a `..` that is not pushed takes a name off, which it leads out of, or stays at the root
    match stack, pushed with
    | [], pushed | .here :: _, pushed | .up :: _, pushed => exact pushed
    | .root :: _, _ | .name _ :: _, _ => simp [normalStep, follow]

theorem foldl_follow_normalSteps (steps : List Component) (place : List RawText) :
    (normalSteps steps).foldl follow place = steps.foldl follow place := by
  suffices ∀ stack : List Component, (steps.foldl normalStep stack).reverse.foldl follow place
      = steps.foldl follow (stack.reverse.foldl follow place) from this []
  induction steps with
  | nil => exact fun _ => rfl
  | cons c steps ih =>
    intro stack
    rw [List.foldl_cons, List.foldl_cons, ih, foldl_follow_normalStep]

/-- **A normal form leads where the path does.** -/
theorem walk_normalize (p : Path) (place : List RawText) : p.normalize.walk place = p.walk place := by
  rw [walk, components_normalize, foldl_follow_normalSteps, walk]

/-! ### The shape of a normal form -/

/-- What stands in front of the names of a normal form: the root, or some `..`. -/
def ground (absolute : Bool) (ups : Nat) : List Component :=
  if absolute then [.root] else List.replicate ups .up

theorem reverse_ground (absolute : Bool) (ups : Nat) :
    (ground absolute ups).reverse = ground absolute ups := by
  cases absolute with
  | true => rfl
  | false => exact List.reverse_replicate ..

/-- Onto names over the ground, a step puts a name, takes one off, or deepens the ground. -/
theorem normalStep_names (absolute : Bool) (ups : Nat) (names : List RawText) {c : Component}
    (hc : c ≠ .root) : ∃ (ups' : Nat) (names' : List RawText),
      normalStep (names.map .name ++ ground absolute ups) c
        = names'.map .name ++ ground absolute ups' := by
  cases c with
  | root => exact absurd rfl hc
  | here => exact ⟨ups, names, rfl⟩
  | name n => exact ⟨ups, n :: names, rfl⟩
  | up =>
    match names, absolute, ups with
    | _ :: names, _, ups => exact ⟨ups, names, rfl⟩
    | [], true, ups => exact ⟨ups, [], rfl⟩
    | [], false, 0 => exact ⟨1, [], rfl⟩
    | [], false, ups + 1 => exact ⟨ups + 2, [], rfl⟩

theorem foldl_normalStep_ground {steps : List Component} (h : Component.root ∉ steps)
    (absolute : Bool) (ups : Nat) (names : List RawText) : ∃ (ups' : Nat) (names' : List RawText),
      steps.foldl normalStep (names.map .name ++ ground absolute ups)
        = names'.map .name ++ ground absolute ups' := by
  induction steps generalizing ups names with
  | nil => exact ⟨ups, names, rfl⟩
  | cons c steps ih =>
    rw [List.mem_cons, not_or] at h
    obtain ⟨ups', names', hstep⟩ := normalStep_names absolute ups names (Ne.symm h.1)
    rw [List.foldl_cons, hstep]
    exact ih h.2 ups' names'

/-- **The steps of a normal form** are names behind the root, or behind some `..`. -/
theorem exists_components_normalize (p : Path) : ∃ (ups : Nat) (names : List RawText),
    p.normalize.components = ground p.isAbsolute ups ++ names.map .name := by
  have hroot := root_not_mem_body p
  -- the leading step is the root, on which the others are piled up, or it leaves nothing
  have hstart : p.components.foldl normalStep []
      = p.body.foldl normalStep (([] : List RawText).map .name ++ ground p.isAbsolute 0) := by
    cases h : p.isAbsolute with
    | true =>
      rw [components_of_isAbsolute h]
      rfl
    | false =>
      rcases components_of_relative h with e | e
      · rw [e]
        rfl
      · rw [e]
        rfl
  obtain ⟨ups, names, h⟩ := foldl_normalStep_ground hroot p.isAbsolute 0 []
  refine ⟨ups, names.reverse, ?_⟩
  rw [components_normalize, normalSteps, hstart, h, List.reverse_append, reverse_ground,
    List.map_reverse]

/-- A normal form is absolute exactly if the path is. -/
theorem isAbsolute_normalize (p : Path) : p.normalize.isAbsolute = p.isAbsolute := by
  obtain ⟨ups, names, h⟩ := exists_components_normalize p
  rw [Bool.eq_iff_iff, isAbsolute_iff, h]
  cases p.isAbsolute with
  | true => simp [ground]
  | false => cases ups <;> cases names <;> simp [ground, List.replicate_succ]

/-! ### Where a normal form leads -/

theorem foldl_follow_names (names place : List RawText) :
    (names.map Component.name).foldl follow place = names.reverse ++ place := by
  induction names generalizing place with
  | nil => rfl
  | cons n names ih =>
    rw [List.map_cons, List.foldl_cons, ih, List.reverse_cons, List.append_assoc]
    rfl

theorem foldl_follow_ground (absolute : Bool) (ups : Nat) (place : List RawText) :
    (ground absolute ups).foldl follow place = if absolute then [] else place.drop ups := by
  cases absolute with
  | true => rfl
  | false =>
    show (List.replicate ups Component.up).foldl follow place = place.drop ups
    induction ups generalizing place with
    | zero => rfl
    | succ ups ih =>
      rw [List.replicate_succ, List.foldl_cons, ih, Nat.add_comm, ← List.drop_drop, List.drop_one]
      rfl

/-- Whether a place can be named by a path. -/
def IsPlace (place : List RawText) : Prop :=
  ∀ n ∈ place, (Component.name n).Spelled

/-- There are places of every depth. -/
theorem isPlace_replicate (depth : Nat) : IsPlace (List.replicate depth (.ofString "a")) := by
  intro n hn
  rw [List.eq_of_mem_replicate hn]
  exact ⟨by decide, by decide, by decide⟩

/-- Every place is denoted by an absolute path. -/
theorem IsPlace.exists_path {place : List RawText} (h : IsPlace place) :
    ∃ base : Path, base.isAbsolute = true ∧ ∀ other, base.walk other = place := by
  have hregular : Regular (.root :: place.reverse.map .name) := by
    refine .absolute fun c hc => ?_
    obtain ⟨n, hn, rfl⟩ := List.mem_map.1 hc
    exact h n (List.mem_reverse.1 hn)
  have hsteps := components_ofComponents hregular
  refine ⟨_, isAbsolute_iff.2 (by rw [hsteps]; rfl), fun other => ?_⟩
  rw [walk, hsteps, List.foldl_cons, foldl_follow_names, List.reverse_reverse]
  exact List.append_nil place

/-- Where a normal form leads, by its shape. -/
def target (absolute : Bool) (ups : Nat) (names place : List RawText) : List RawText :=
  names.reverse ++ if absolute then [] else place.drop ups

theorem length_target (absolute : Bool) (ups : Nat) (names place : List RawText) :
    (target absolute ups names place).length
      = names.length + if absolute then 0 else place.length - ups := by
  cases absolute <;> simp [target]

/-! ### Normal forms tell files apart -/

/-- **Where a normal form leads tells its shape**: the names show at the root, and what stands in
front of them at a place that is deep enough. -/
theorem shape_eq_of_target {a b : Bool} {ups ups' : Nat} {names names' : List RawText}
    (h : ∀ place, IsPlace place → target a ups names place = target b ups' names' place) :
    ground a ups ++ names.map .name = ground b ups' ++ names'.map .name := by
  have hnames : names = names' := by simpa [target] using h [] (isPlace_replicate 0)
  -- what is left of a place deeper than both is shorter by the number of `..`, or gone
  have deep := congrArg List.length (h _ (isPlace_replicate (ups + ups' + 1)))
  rw [length_target, length_target, hnames, Nat.add_left_cancel_iff, List.length_replicate] at deep
  have hground : ground a ups = ground b ups' := by
    cases a <;> cases b <;> simp only [if_true, if_false, Bool.false_eq_true] at deep
    case true.true => rfl
    case false.false =>
      have hups : ups = ups' := by omega
      rw [hups]
    case true.false | false.true => omega
  rw [hground, hnames]

/-- A normal form leads where its shape says. -/
theorem exists_walk_eq_target (p : Path) : ∃ (ups : Nat) (names : List RawText),
    p.normalize.components = ground p.isAbsolute ups ++ names.map .name ∧
      ∀ place, p.walk place = target p.isAbsolute ups names place := by
  obtain ⟨ups, names, h⟩ := exists_components_normalize p
  refine ⟨ups, names, h, fun place => ?_⟩
  rw [← walk_normalize, walk, h, List.foldl_append, foldl_follow_ground, foldl_follow_names, target]

/-- Paths that lead to the same places have the same normal form. -/
theorem normalize_eq_of_walk {p q : Path}
    (h : ∀ place, IsPlace place → p.walk place = q.walk place) : p.normalize = q.normalize := by
  obtain ⟨ups, names, hp, hwalk⟩ := exists_walk_eq_target p
  obtain ⟨ups', names', hq, hwalk'⟩ := exists_walk_eq_target q
  have htarget : ∀ place, IsPlace place → target p.isAbsolute ups names place
      = target q.isAbsolute ups' names' place := by
    intro place hplace
    rw [← hwalk place, ← hwalk' place, h place hplace]
  refine ((isNormal_normalize p).same_iff_eq (isNormal_normalize q)).1 ?_
  rw [same, beq_iff_eq, hp, hq, shape_eq_of_target htarget]

/-- **Two paths have the same normal form exactly if they denote the same file.** -/
theorem normalize_eq_iff_sameFile {p q : Path} : p.normalize = q.normalize ↔ p.SameFile q := by
  refine ⟨fun h place => ?_, fun h => normalize_eq_of_walk fun place _ => h place⟩
  rw [← walk_normalize p, ← walk_normalize q, h]

instance (p q : Path) : Decidable (p.SameFile q) :=
  decidable_of_iff _ normalize_eq_iff_sameFile

/-- **No absolute directory tells two paths with the same normal form apart**, and of any others
one does. -/
theorem normalize_eq_iff_join {p q : Path} : p.normalize = q.normalize ↔
    ∀ base : Path, base.isAbsolute = true → (base.join p).normalize = (base.join q).normalize := by
  constructor
  · intro h base _
    rw [normalize_eq_iff_sameFile] at h ⊢
    intro place
    rw [walk_join, walk_join, h]
  · intro h
    -- a place is where some absolute directory is, and from there both paths lead to one place
    refine normalize_eq_of_walk fun place hplace => ?_
    obtain ⟨base, habs, hbase⟩ := hplace.exists_path
    have hjoin := normalize_eq_iff_sameFile.1 (h base habs) []
    rwa [walk_join, walk_join, hbase] at hjoin

/-- **Normal forms can be taken before joining.** -/
theorem normalize_join (p q : Path) :
    (p.join q).normalize = (p.normalize.join q.normalize).normalize := by
  rw [normalize_eq_iff_sameFile]
  intro place
  rw [walk_join, walk_join, walk_normalize, walk_normalize]

end LintHost.Path
