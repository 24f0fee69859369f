/-
LintHost/Proofs/Text/Bytewise.lean

Texts are ordered like the bytes that write them: of two texts that are compared
character by character the smaller one has the smaller UTF-8 (`encode_lt_encode`).
A smaller character is decided within its own bytes, whatever follows them
(`utf8EncodeChar_append_lt`).
-/
import LintHost.Text.Utf8

namespace LintHost.Text

theorem toNat_lt_bound (c : Char) : c.toNat < 0x110000 := by
  have h := c.valid
  simp only [UInt32.isValidChar, Nat.isValidChar] at h
  show c.val.toNat < 0x110000
  omega

theorem ofNat_lt_ofNat {m n : Nat} (hm : m < 256) (hn : n < 256) :
    UInt8.ofNat m < UInt8.ofNat n ↔ m < n := by
  rw [UInt8.lt_iff_toNat_lt, UInt8.toNat_ofNat_of_lt' hm, UInt8.toNat_ofNat_of_lt' hn]

theorem ofNat_eq_ofNat {m n : Nat} (hm : m < 256) (hn : n < 256) :
    UInt8.ofNat m = UInt8.ofNat n ↔ m = n := by
  rw [← UInt8.toNat_inj, UInt8.toNat_ofNat_of_lt' hm, UInt8.toNat_ofNat_of_lt' hn]

/-- The bytes of a smaller character come first, whatever follows the two. -/
theorem utf8EncodeChar_append_lt {c d : Char} (h : c < d) (x y : List UInt8) :
    String.utf8EncodeChar c ++ x < String.utf8EncodeChar d ++ y := by
  have hlt : c.val.toNat < d.val.toNat := h
  have hbound : d.val.toNat < 0x110000 := toNat_lt_bound d
  simp only [String.utf8EncodeChar]
  generalize c.val.toNat = m at *
  generalize d.val.toNat = n at *
  -- each digit in base 64 is one of the number without the digits after it
  have h12 (k : Nat) : k / 4096 = k / 64 / 64 := by omega
  have h18 (k : Nat) : k / 262144 = k / 64 / 64 / 64 := by omega
  split <;> split <;> (try split) <;> (try split) <;> (try split) <;> (try split) <;>
    simp (disch := omega) only [List.cons_append, List.nil_append, List.cons_lt_cons_iff,
      ofNat_lt_ofNat, ofNat_eq_ofNat, h12, h18]
  all_goals omega

/-- **The bytes of a smaller text come first.** -/
theorem encode_lt_encode {s t : List Char} (h : s < t) : encode s < encode t := by
  induction h with
  | nil =>
    rw [encode, encode, List.flatMap_nil, List.flatMap_cons]
    cases he : String.utf8EncodeChar _ with
    | nil => exact absurd he String.utf8EncodeChar_ne_nil
    | cons => exact List.nil_lt_cons _ _
  | cons _ ih => exact List.append_left_lt ih
  | rel h => exact utf8EncodeChar_append_lt h _ _

end LintHost.Text
