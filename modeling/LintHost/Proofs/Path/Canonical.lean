/-
LintHost/Proofs/Path/Canonical.lean

Normal forms are spelled in one way only.  Joining with a relative path puts its
steps behind those of the left side (`components_join`), so the path spelled from a
list of steps denotes exactly these steps (`components_ofComponents`), as long as
each of them can be spelled at its place.  The steps of a normal form can, hence a
normalised path denotes its normal form (`components_normalize`).

Main result: two normal paths with the same components are equal
(`IsNormal.same_iff_eq`).
-/
import LintHost.Path.Normal
import LintHost.Proofs.Text.Separators

namespace LintHost.Path

open Component

/-! ### The steps of a joined path -/

/-- The steps of a path behind its leading one. -/
def body (p : Path) : List Component :=
  ((Text.splitOn separator p.raw.bytes).filter fun s => !isIdle s).map Component.ofSegment

theorem components_eq (p : Path) :
    p.components = leading (Text.splitOn separator p.raw.bytes) p.isAbsolute ++ p.body := rfl

theorem leading_append {segments : List (List UInt8)} (h : segments ≠ [])
    (more : List (List UInt8)) (absolute : Bool) :
    leading (segments ++ more) absolute = leading segments absolute := by
  cases segments with
  | nil => exact absurd rfl h
  | cons s segments => rfl

/-- A separator and more behind a path add the steps of what comes behind it. -/
theorem components_of_bytes_eq {p : Path} {a b : List UInt8} (h : p.raw.bytes = a ++ separator :: b)
    (ha : a ≠ []) : p.components = (⟨⟨a⟩⟩ : Path).components ++ (⟨⟨b⟩⟩ : Path).body := by
  have hs : Text.splitOn separator p.raw.bytes
      = Text.splitOn separator a ++ Text.splitOn separator b := by
    rw [h, Text.splitOn_append_cons]
  have hl : p.isAbsolute = (⟨⟨a⟩⟩ : Path).isAbsolute := by
    unfold isAbsolute
    rw [h, List.head?_append, List.head?_eq_some_head ha, Option.some_or]
  rw [components_eq, components_eq, hl, hs, leading_append (Text.splitOn_ne_nil _ _)]
  simp [body, hs]

/-- The steps of an absolute path follow the root. -/
theorem components_of_bytes_eq_root {p : Path} {b : List UInt8} (h : p.raw.bytes = separator :: b) :
    p.components = .root :: (⟨⟨b⟩⟩ : Path).body := by
  have hs : Text.splitOn separator p.raw.bytes = [] :: Text.splitOn separator b := by
    simp [h, Text.splitOn]
  have ha : p.isAbsolute = true := by simp [isAbsolute, h]
  rw [components_eq, ha]
  simp [leading, body, hs, isIdle]

/-- Joining with a relative path puts its steps behind those of the left side. -/
theorem components_join {p q : Path} (hq : q.isAbsolute = false) (hp : p.raw.bytes ≠ []) :
    (p.join q).components = p.components ++ q.body := by
  by_cases hl : p.raw.bytes.getLast? = some separator
  · -- the separator is there already: `p` itself is something, a separator and nothing
    obtain ⟨a, ha⟩ := List.getLast?_eq_some_iff.1 hl
    have hj : p.join q = ⟨p.raw ++ q.raw⟩ := by simp [join, hq, hl]
    have hb : (p.join q).raw.bytes = a ++ separator :: q.raw.bytes := by simp [hj, ha]
    by_cases hn : a = []
    · subst hn
      rw [components_of_bytes_eq_root hb, components_of_bytes_eq_root ha]
      simp [body, Text.splitOn, isIdle]
    · rw [components_of_bytes_eq hb hn, components_of_bytes_eq ha hn]
      simp [body, Text.splitOn, isIdle]
  · have hj : p.join q = ⟨p.raw ++ ⟨[separator]⟩ ++ q.raw⟩ := by simp [join, hq, hl, hp]
    have hb : (p.join q).raw.bytes = p.raw.bytes ++ separator :: q.raw.bytes := by simp [hj]
    rw [components_of_bytes_eq hb hp]

/-- The empty path is the one without bytes. -/
theorem eq_empty {p : Path} (h : p.raw.bytes = []) : p = ⟨""⟩ := by
  obtain ⟨⟨bytes⟩⟩ := p
  cases h
  rfl

/-- Joining an empty path gives the other one. -/
theorem empty_join (q : Path) : (⟨""⟩ : Path).join q = q := by
  unfold join
  split
  · rfl
  · rfl

/-! ### Steps that can be spelled -/

/-- A step that a segment of its own spells: all but the root and a leading `.`. -/
structure Component.Spelled (c : Component) : Prop where
  not_idle : isIdle c.spelling.bytes = false
  no_separator : separator ∉ c.spelling.bytes
  reads : Component.ofSegment c.spelling.bytes = c

theorem Component.spelled_up : Component.up.Spelled where
  not_idle := rfl
  no_separator := by decide
  reads := rfl

theorem Component.spelled_ofSegment {s : List UInt8} (hi : isIdle s = false) (hs : separator ∉ s) :
    (Component.ofSegment s).Spelled := by
  by_cases h : s = [dot, dot]
  · rw [h]
    exact spelled_up
  · have e : Component.ofSegment s = .name ⟨s⟩ := if_neg h
    rw [e]
    exact ⟨by simpa [spelling] using hi, by simpa [spelling] using hs,
      by simp [spelling, Component.ofSegment, h]⟩

theorem spelled_of_mem_body {p : Path} {c : Component} (h : c ∈ p.body) : c.Spelled := by
  obtain ⟨s, hs, rfl⟩ := List.mem_map.1 h
  obtain ⟨hm, hi⟩ := List.mem_filter.1 hs
  exact Component.spelled_ofSegment (by simpa using hi) (Text.not_mem_of_mem_splitOn hm)

variable {c : Component}

theorem splitOn_spelling (h : c.Spelled) :
    Text.splitOn separator c.spelling.bytes = [c.spelling.bytes] :=
  Text.splitOn_of_not_mem h.no_separator

theorem isAbsolute_spelling (h : c.Spelled) : (⟨c.spelling⟩ : Path).isAbsolute = false := by
  rcases e : c.spelling.bytes with - | ⟨first, rest⟩
  · simp [isAbsolute, e]
  · have hf : first ≠ separator := fun hf => h.no_separator (by simp [e, hf])
    simp [isAbsolute, e, hf]

theorem body_spelling (h : c.Spelled) : (⟨c.spelling⟩ : Path).body = [c] := by
  simp [body, splitOn_spelling h, h.not_idle, h.reads]

theorem components_spelling (h : c.Spelled) : (⟨c.spelling⟩ : Path).components = [c] := by
  have hd : c.spelling.bytes ≠ [dot] := by
    intro e
    have := h.not_idle
    rw [e] at this
    cases this
  rw [components_eq, body_spelling h, splitOn_spelling h, isAbsolute_spelling h]
  simp [leading, hd]

/-- One more step behind a path. -/
theorem components_join_spelling (p : Path) (h : c.Spelled) :
    (p.join ⟨c.spelling⟩).components = p.components ++ [c] := by
  by_cases hp : p.raw.bytes = []
  · rw [eq_empty hp, empty_join, components_spelling h]
    rfl
  · rw [components_join (isAbsolute_spelling h) hp, body_spelling h]

theorem components_foldl_join (p : Path) {steps : List Component} (h : ∀ c ∈ steps, c.Spelled) :
    (steps.foldl (fun p step => p.join ⟨step.spelling⟩) p).components
      = p.components ++ steps := by
  induction steps generalizing p with
  | nil => simp
  | cons c steps ih =>
    rw [List.foldl_cons, ih _ fun c hc => h c (List.mem_cons_of_mem _ hc),
      components_join_spelling p (h c List.mem_cons_self)]
    simp

/-- Steps that can be spelled one after the other: the root comes first, if at all. -/
inductive Regular : List Component → Prop
  | relative {steps : List Component} (h : ∀ c ∈ steps, c.Spelled) : Regular steps
  | absolute {steps : List Component} (h : ∀ c ∈ steps, c.Spelled) : Regular (.root :: steps)

/-- The path spelled from a list of steps denotes these steps. -/
theorem components_ofComponents {steps : List Component} (h : Regular steps) :
    (ofComponents steps).components = steps := by
  cases h with
  | relative h => exact components_foldl_join ⟨""⟩ h
  | @absolute steps h =>
    have hr : (⟨""⟩ : Path).join ⟨Component.root.spelling⟩ = ⟨"/"⟩ := empty_join _
    rw [ofComponents, List.foldl_cons, hr]
    exact components_foldl_join ⟨"/"⟩ h

/-! ### Normal forms -/

/-- Below some steps that stay at the bottom of the stack, a step leaves only steps that can
be spelled. -/
theorem normalStep_spelled {above base : List Component} (hb : base = [] ∨ base = [.root])
    (ha : ∀ c ∈ above, c.Spelled) (hc : c.Spelled) :
    ∃ above', normalStep (above ++ base) c = above' ++ base ∧ ∀ c ∈ above', c.Spelled := by
  have grown : ∀ c' ∈ c :: above, c'.Spelled := by
    intro c' h
    rcases List.mem_cons.1 h with rfl | h
    · exact hc
    · exact ha c' h
  cases c with
  | root => exact absurd hc.no_separator (by decide)
  | here => exact absurd hc.not_idle (by decide)
  | name n => exact ⟨.name n :: above, rfl, grown⟩
  | up =>
    -- it takes a name away, is lost above the root, and is put on top of anything else
    match above, ha, grown with
    | [], _, _ =>
      rcases hb with rfl | rfl
      · exact ⟨[.up], rfl, by simpa using hc⟩
      · exact ⟨[], rfl, by simp⟩
    | .name _ :: rest, ha, _ => exact ⟨rest, rfl, fun c h => ha c (List.mem_cons_of_mem _ h)⟩
    | .root :: rest, ha, _ => exact ⟨.root :: rest, rfl, ha⟩
    | .here :: rest, _, grown => exact ⟨.up :: .here :: rest, rfl, grown⟩
    | .up :: rest, _, grown => exact ⟨.up :: .up :: rest, rfl, grown⟩

theorem foldl_normalStep_spelled {above base steps : List Component}
    (hb : base = [] ∨ base = [.root]) (ha : ∀ c ∈ above, c.Spelled)
    (hs : ∀ c ∈ steps, c.Spelled) :
    ∃ above', steps.foldl normalStep (above ++ base) = above' ++ base ∧
      ∀ c ∈ above', c.Spelled := by
  induction steps generalizing above with
  | nil => exact ⟨above, rfl, ha⟩
  | cons c steps ih =>
    obtain ⟨above', he, ha'⟩ := normalStep_spelled hb ha (hs c List.mem_cons_self)
    rw [List.foldl_cons, he]
    exact ih ha' fun c hc => hs c (List.mem_cons_of_mem _ hc)

/-- The steps of a normal form can be spelled one after the other. -/
theorem regular_normalSteps (p : Path) : Regular (normalSteps p.components) := by
  have hn : ∀ c ∈ ([] : List Component), c.Spelled := by simp
  have hs : ∀ c ∈ p.body, c.Spelled := fun c hc => spelled_of_mem_body hc
  rw [components_eq, leading, normalSteps, List.foldl_append]
  split
  · obtain ⟨above, he, ha⟩ := foldl_normalStep_spelled (.inr rfl) hn hs
    have he' : p.body.foldl normalStep ([Component.root].foldl normalStep []) = above ++ [.root] :=
      he
    rw [he', List.reverse_append]
    exact .absolute fun c hc => ha c (List.mem_reverse.1 hc)
  · obtain ⟨above, he, ha⟩ := foldl_normalStep_spelled (.inl rfl) hn hs
    rw [List.nil_append, List.append_nil] at he
    refine .relative fun c hc => ha c ?_
    split at hc
    · simpa [normalStep, he] using hc
    · simpa [he] using hc

/-- A normalised path denotes its normal form. -/
theorem components_normalize (p : Path) : p.normalize.components = normalSteps p.components :=
  components_ofComponents (regular_normalSteps p)

/-- A path in the spelling of its normal form. -/
def IsNormal (p : Path) : Prop :=
  ∃ q : Path, q.normalize = p

theorem isNormal_normalize (p : Path) : p.normalize.IsNormal := ⟨p, rfl⟩

/-- **Normal forms are spelled in one way only.** -/
theorem IsNormal.same_iff_eq {p q : Path} (hp : p.IsNormal) (hq : q.IsNormal) :
    p.same q = true ↔ p = q := by
  constructor
  · intro h
    obtain ⟨p', rfl⟩ := hp
    obtain ⟨q', rfl⟩ := hq
    rw [same, beq_iff_eq, components_normalize, components_normalize] at h
    rw [normalize, normalize, h]
  · rintro rfl
    simp [same]

end LintHost.Path
