/-
LintHost/Proofs/Document/Ranges.lean

Ranges of lines as they are written.  A part of a range is read exactly if it writes a line
number (`number?_eq_some_iff`).  So a range is read exactly if it names two lines in order
(`read_eq_ok_iff`), and it counts them from zero then, which takes both below 64 bits.
-/
import LintHost.LineRange
import LintHost.Proofs.Storage.Replacing
import LintHost.Proofs.Text.Trimming

namespace LintHost

open Storage Text

namespace LineRange

/-- Whether a part of a range writes a line number: there are blanks at both ends, maybe a plus
sign, and digits, whose number is positive and fits in 64 bits. -/
def Writes (part : List Char) (n : Nat) : Prop :=
  ∃ lead sign digits trail, part = lead ++ (sign ++ digits) ++ trail ∧
    (∀ c ∈ lead, isBlank c = true) ∧ (∀ c ∈ trail, isBlank c = true) ∧
    (sign = [] ∨ sign = ['+']) ∧ digits ≠ [] ∧ (∀ c ∈ digits, c.isDigit = true) ∧
    Nat.ofDigitChars 10 digits 0 = n ∧ 1 ≤ n ∧ n < UInt64.size

/-- Whether a text names the lines from one to another, counted from one: before its first colon it
writes the number of the first line, and behind it the number of the last. -/
def Names (s : String) (a b : Nat) : Prop :=
  ∃ start stop, s.toList = start ++ ':' :: stop ∧ ':' ∉ start ∧ Writes start a ∧ Writes stop b ∧
    a ≤ b

theorem isBlank_of_isDigit {c : Char} (h : c.isDigit = true) : isBlank c = false := by
  have hrange : 48 ≤ c.toNat ∧ c.toNat ≤ 57 := by
    rw [Char.isDigit, Bool.and_eq_true, decide_eq_true_eq, decide_eq_true_eq] at h
    exact h
  rw [← Bool.not_eq_true]
  intro hb
  simp only [isBlank, Bool.or_eq_true, Bool.and_eq_true, decide_eq_true_eq, beq_iff_eq] at hb
  omega

/-- What is read from a trimmed part: behind its sign, if it has one, digits. -/
theorem number?_of_trim {part sign digits : List Char} (hs : sign = [] ∨ sign = ['+'])
    (hd : ∀ c ∈ digits, c.isDigit = true) (htrim : trim part = sign ++ digits) :
    number? part = (ofDecimal? digits).filter fun n => 1 ≤ n && n < UInt64.size := by
  rw [number?, htrim]
  rcases hs with rfl | rfl
  · -- the sign is no digit
    rw [List.nil_append]
    split
    · cases hd '+' List.mem_cons_self
    · rfl
  · rfl

/-- **A part is read exactly if it writes a line number.** -/
theorem number?_eq_some_iff {part : List Char} {n : Nat} :
    number? part = some n ↔ Writes part n := by
  have hnumber : ∀ digits,
      (ofDecimal? digits).filter (fun n => 1 ≤ n && n < UInt64.size) = some n ↔
        digits ≠ [] ∧ (∀ c ∈ digits, c.isDigit = true) ∧ Nat.ofDigitChars 10 digits 0 = n ∧
          1 ≤ n ∧ n < UInt64.size := by
    intro digits
    rw [Option.filter_eq_some_iff, ofDecimal?_eq_some_iff]
    simp [and_assoc]
  constructor
  · intro h
    obtain ⟨trail, hpart, ht⟩ := exists_eq_append_trim part
    have hl : ∀ c ∈ part.takeWhile isBlank, isBlank c = true := fun c hc =>
      List.mem_takeWhile_imp hc
    rw [number?] at h
    split at h
    · next rest htrim =>
      rw [htrim] at hpart
      exact ⟨_, ['+'], rest, trail, hpart, hl, ht, .inr rfl, (hnumber rest).1 h⟩
    · exact ⟨_, [], trim part, trail, hpart, hl, ht, .inl rfl, (hnumber _).1 h⟩
  · rintro ⟨lead, sign, digits, trail, rfl, hl, ht, hs, hdigits⟩
    have hword : ∀ c ∈ sign ++ digits, isBlank c = false := by
      intro c hc
      rcases List.mem_append.1 hc with hc | hc
      · rcases hs with rfl | rfl
        · cases hc
        · rw [List.mem_singleton.1 hc]
          rfl
      · exact isBlank_of_isDigit (hdigits.2.1 c hc)
    have htrim := trim_of_word hl (List.append_ne_nil_of_right_ne_nil sign hdigits.1) hword ht
    rw [number?_of_trim hs hdigits.2.1 htrim]
    exact (hnumber digits).2 hdigits

theorem readNumber_eq_ok_iff {part : List Char} {n : Nat} :
    readNumber part = .ok n ↔ Writes part n := by
  rw [← number?_eq_some_iff, readNumber]
  cases number? part with
  | none => simp
  | some k => simp

theorem Writes.pos {part : List Char} {n : Nat} (h : Writes part n) : 1 ≤ n := by
  obtain ⟨-, -, -, -, -, -, -, -, -, -, -, hpos, -⟩ := h
  exact hpos

theorem Names.bounds {s : String} {a b : Nat} (h : Names s a b) : 1 ≤ a ∧ a ≤ b := by
  obtain ⟨_, _, _, _, ha, _, hle⟩ := h
  exact ⟨ha.pos, hle⟩

/-- A range does not look like an option. -/
theorem Names.head?_ne {s : String} {a b : Nat} (h : Names s a b) :
    s.toList.head? ≠ some '-' := by
  obtain ⟨-, stop, hs, -, ⟨lead, sign, digits, trail, rfl, hl, -, hsign, hne, hd, -⟩, -⟩ := h
  obtain ⟨c, digits, rfl⟩ := List.exists_cons_of_ne_nil hne
  rw [hs]
  cases lead with
  | cons c lead =>
    intro heq
    obtain rfl : c = '-' := Option.some.inj heq
    cases hl '-' List.mem_cons_self
  | nil =>
    rcases hsign with rfl | rfl
    · intro heq
      obtain rfl : c = '-' := Option.some.inj heq
      cases hd '-' List.mem_cons_self
    · nofun

/-- Two parts are read exactly if they write numbers in order. -/
theorem readParts_eq_ok_iff {start stop : List Char} {r : LineRange} :
    (do
      let first ← readNumber start
      let last ← readNumber stop
      if last < first then throw (.order first last)
      return ⟨first - 1, last - 1⟩) = Except.ok r ↔
    ∃ a b, Writes start a ∧ Writes stop b ∧ a ≤ b ∧ r.first + 1 = a ∧ r.last + 1 = b := by
  constructor
  · intro h
    obtain ⟨a, ha, h⟩ := bind_eq_ok_iff.1 h
    obtain ⟨b, hb, h⟩ := bind_eq_ok_iff.1 h
    rw [readNumber_eq_ok_iff] at ha hb
    split at h
    · cases h
    · next hlt =>
      cases h
      exact ⟨a, b, ha, hb, Nat.le_of_not_lt hlt, Nat.sub_add_cancel ha.pos,
        Nat.sub_add_cancel hb.pos⟩
  · rintro ⟨a, b, ha, hb, hle, rfl, rfl⟩
    refine bind_eq_ok_iff.2 ⟨_, readNumber_eq_ok_iff.2 ha, ?_⟩
    refine bind_eq_ok_iff.2 ⟨_, readNumber_eq_ok_iff.2 hb, ?_⟩
    rw [if_neg (Nat.not_lt_of_le hle)]
    rfl

/-- **A range is read exactly if it names two lines in order**, which are then counted from zero. -/
theorem read_eq_ok_iff {s : String} {r : LineRange} :
    read s = .ok r ↔ ∃ a b, Names s a b ∧ r.first + 1 = a ∧ r.last + 1 = b := by
  rw [read]
  constructor
  · intro h
    split at h
    · cases h
    · next start stop hsplit =>
      obtain ⟨hs, hstart⟩ := splitFirst?_eq_some_iff.1 hsplit
      obtain ⟨a, b, ha, hb, hle, hr⟩ := readParts_eq_ok_iff.1 h
      exact ⟨a, b, ⟨start, stop, hs, hstart, ha, hb, hle⟩, hr⟩
  · rintro ⟨a, b, ⟨start, stop, hs, hstart, ha, hb, hle⟩, hr⟩
    rw [splitFirst?_eq_some_iff.2 ⟨hs, hstart⟩]
    exact readParts_eq_ok_iff.2 ⟨a, b, ha, hb, hle, hr⟩

end LineRange

end LintHost
