/-
LintHost/Text/Lines.lean

Cutting a text into lines.  `newlineLines` cuts after every line feed and
`terminatedLines` after every line feed, carriage return or pair of the two; both
keep the terminators, so the pieces put together are the text again
(`flatten_newlineLines`, `flatten_terminatedLines`).  `splitOn` and
`joinWith` cut at and join with a separator that is not kept, and `splitFirst?`
cuts at its first occurrence only (`splitFirst?_eq_some_iff`).
-/

namespace LintHost.Text

/-- Puts an element in front of the first piece. -/
def consFirst {α : Type} (c : α) : List (List α) → List (List α)
  | [] => [[c]]
  | piece :: pieces => (c :: piece) :: pieces

theorem flatten_consFirst {α : Type} (c : α) (pieces : List (List α)) :
    (consFirst c pieces).flatten = c :: pieces.flatten := by
  cases pieces <;> rfl

/-! ### Lines with their terminators -/

/-- The lines of a text, each with its line feed; the last one may lack it. -/
def newlineLines : List Char → List (List Char)
  | [] => []
  | c :: rest => if c = '\n' then [c] :: newlineLines rest else consFirst c (newlineLines rest)

/-- The lines of a text cut after a line feed, a carriage return, or both in a row. -/
def terminatedLines : List Char → List (List Char)
  | [] => []
  | '\n' :: rest => ['\n'] :: terminatedLines rest
  | '\r' :: '\n' :: rest => ['\r', '\n'] :: terminatedLines rest
  | '\r' :: rest => ['\r'] :: terminatedLines rest
  | c :: rest => consFirst c (terminatedLines rest)

/-- Nothing is lost and nothing added by cutting at line feeds. -/
theorem flatten_newlineLines (s : List Char) : (newlineLines s).flatten = s := by
  induction s with
  | nil => rfl
  | cons c rest ih =>
    simp only [newlineLines]
    split
    · simp [ih]
    · rw [flatten_consFirst, ih]

/-- Nothing is lost and nothing added by cutting at any terminator. -/
theorem flatten_terminatedLines (s : List Char) : (terminatedLines s).flatten = s := by
  fun_induction terminatedLines s with
  | case1 => rfl
  | case2 rest ih => simp [ih]
  | case3 rest ih => simp [ih]
  | case4 rest _ ih => simp [ih]
  | case5 c rest _ _ _ ih => simp [flatten_consFirst, ih]

/-! ### Separators -/

variable {α : Type} [DecidableEq α]

/-- The parts of a text between the occurrences of a separator; there is always one. -/
def splitOn (sep : α) : List α → List (List α)
  | [] => [[]]
  | c :: rest => if c = sep then [] :: splitOn sep rest else consFirst c (splitOn sep rest)

/-- The parts with a separator between each two. -/
def joinWith (sep : List α) : List (List α) → List α
  | [] => []
  | [part] => part
  | part :: parts => part ++ sep ++ joinWith sep parts

theorem splitOn_ne_nil (sep : α) (s : List α) : splitOn sep s ≠ [] := by
  cases s with
  | nil => simp [splitOn]
  | cons c rest =>
    simp only [splitOn]
    split
    · simp
    · cases splitOn sep rest <;> simp [consFirst]

/-- Joining the parts with the separator gives the text back. -/
theorem joinWith_splitOn (sep : α) (s : List α) :
    joinWith [sep] (splitOn sep s) = s := by
  induction s with
  | nil => rfl
  | cons c rest ih =>
    cases hp : splitOn sep rest with
    | nil => exact absurd hp (splitOn_ne_nil sep rest)
    | cons part parts =>
      simp only [splitOn, hp]
      rw [hp] at ih
      split
      · next h => simp [joinWith, h, ih]
      · cases parts with
        | nil => simpa [consFirst, joinWith] using ih
        | cons next more =>
          simp only [joinWith, consFirst, List.cons_append] at ih ⊢
          rw [ih]

/-! ### The first separator -/

/-- The parts before and after the first occurrence of a separator, if it occurs. -/
def splitFirst? (sep : α) : List α → Option (List α × List α)
  | [] => none
  | c :: rest =>
    if c = sep then some ([], rest) else (splitFirst? sep rest).map fun p => (c :: p.1, p.2)

/-- Cutting at the first separator gives a part without one, and what follows it. -/
theorem splitFirst?_eq_some_iff {sep : α} {s before after : List α} :
    splitFirst? sep s = some (before, after) ↔ s = before ++ sep :: after ∧ sep ∉ before := by
  induction s generalizing before with
  | nil => simp [splitFirst?]
  | cons c rest ih =>
    simp only [splitFirst?]
    split
    · next h =>
      subst h
      cases before with
      | nil => simp
      | cons b before => simp +contextual [eq_comm]
    · next h =>
      simp only [Option.map_eq_some_iff, Prod.mk.injEq, Prod.exists]
      constructor
      · rintro ⟨b, a, hb, rfl, rfl⟩
        obtain ⟨rfl, hn⟩ := ih.1 hb
        exact ⟨rfl, by simp [hn, Ne.symm h]⟩
      · cases before with
        | nil => simp [h]
        | cons b before =>
          simp only [List.cons_append, List.cons.injEq, List.mem_cons, not_or]
          rintro ⟨⟨rfl, rfl⟩, -, hn⟩
          exact ⟨before, after, ih.2 ⟨rfl, hn⟩, ⟨rfl, rfl⟩, rfl⟩

theorem splitFirst?_length_lt {sep : α} {s before after : List α}
    (h : splitFirst? sep s = some (before, after)) : after.length < s.length := by
  obtain ⟨rfl, -⟩ := splitFirst?_eq_some_iff.1 h
  simp; omega

end LintHost.Text
