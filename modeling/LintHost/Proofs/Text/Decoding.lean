/-
LintHost/Proofs/Text/Decoding.lean

Reading UTF-8 strictly loses nothing: the bytes of a text that was read are the bytes
that it was read from (`encode_of_decode?`).  A sequence is accepted only in its
shortest form, so each character has one.
-/
import LintHost.Text.Utf8

namespace LintHost.Text

/-- A continuation byte that was read was within its range. -/
theorem readTails_succ_eq_some {n bits v : Nat} {low high : UInt8} {bytes rest : List UInt8}
    (h : readTails (n + 1) low high bits bytes = (some v, rest)) :
    ∃ b tail, bytes = b :: tail ∧ (low.toNat ≤ b.toNat ∧ b.toNat ≤ high.toNat) ∧
      readTails n 0x80 0xBF (bits * 64 + (b.toNat - 0x80)) tail = (some v, rest) := by
  cases bytes with
  | nil => cases h
  | cons b tail =>
    rw [readTails] at h
    split at h
    · next hb => exact ⟨b, tail, rfl, hb, h⟩
    · cases h

theorem readTails_zero_eq_some {bits v : Nat} {low high : UInt8} {bytes rest : List UInt8}
    (h : readTails 0 low high bits bytes = (some v, rest)) : v = bits ∧ rest = bytes := by
  cases h
  exact ⟨rfl, rfl⟩

theorem val_ofNat {v : Nat} (h : v.isValidChar) : (Char.ofNat v).val.toNat = v := by
  rw [Char.ofNat, dif_pos h]
  rfl

theorem utf8EncodeChar_ofNat {v : Nat} (h : v.isValidChar) : String.utf8EncodeChar (Char.ofNat v)
    = if v ≤ 0x7F then [UInt8.ofNat v]
      else if v ≤ 0x7FF then [UInt8.ofNat (v / 64 % 32 + 0xC0), UInt8.ofNat (v % 64 + 0x80)]
      else if v ≤ 0xFFFF then [UInt8.ofNat (v / 4096 % 16 + 0xE0),
        UInt8.ofNat (v / 64 % 64 + 0x80), UInt8.ofNat (v % 64 + 0x80)]
      else [UInt8.ofNat (v / 262144 % 8 + 0xF0), UInt8.ofNat (v / 4096 % 64 + 0x80),
        UInt8.ofNat (v / 64 % 64 + 0x80), UInt8.ofNat (v % 64 + 0x80)] := by
  rw [String.utf8EncodeChar, val_ofNat h]

theorem ofNat_eq_of_toNat {n : Nat} {b : UInt8} (h : n = b.toNat) : UInt8.ofNat n = b := by
  rw [h, UInt8.ofNat_toNat]

/-- What the first byte of a sequence promises, by the number of bytes in the sequence.  The range
of the second byte keeps out what could be written shorter, what stands for no character and what
is too large. -/
inductive Promises (b : UInt8) : Lead → Prop
  | one (upper : b.toNat < 0x80) : Promises b ⟨0, 0x80, 0xBF, b.toNat⟩
  | two (lower : 0xC2 ≤ b.toNat) (upper : b.toNat < 0xE0) :
      Promises b ⟨1, 0x80, 0xBF, b.toNat - 0xC0⟩
  | three {low high : UInt8} (lower : 0xE0 ≤ b.toNat) (upper : b.toNat < 0xF0)
      (hlow : 0x80 ≤ low.toNat) (hhigh : high.toNat ≤ 0xBF)
      (first : b.toNat = 0xE0 → 0xA0 ≤ low.toNat) (surrogate : b.toNat = 0xED → high.toNat ≤ 0x9F) :
      Promises b ⟨2, low, high, b.toNat - 0xE0⟩
  | four {low high : UInt8} (lower : 0xF0 ≤ b.toNat) (upper : b.toNat < 0xF5)
      (hlow : 0x80 ≤ low.toNat) (hhigh : high.toNat ≤ 0xBF)
      (first : b.toNat = 0xF0 → 0x90 ≤ low.toNat) (last : b.toNat = 0xF4 → high.toNat ≤ 0x8F) :
      Promises b ⟨3, low, high, b.toNat - 0xF0⟩

theorem promises_of_ofByte? {b : UInt8} {lead : Lead} (h : Lead.ofByte? b = some lead) :
    Promises b lead := by
  have hlt (k : UInt8) : b < k ↔ b.toNat < k.toNat := UInt8.lt_iff_toNat_lt
  have hend (k : UInt8) : (b == k) = decide (b.toNat = k.toNat) := by
    rw [Bool.eq_iff_iff, beq_iff_eq, decide_eq_true_eq, UInt8.toNat_inj]
  unfold Lead.ofByte? at h
  simp only [hlt, hend, UInt8.toNat_ofNat] at h
  split at h
  · cases h
    exact .one ‹_›
  split at h
  · cases h
  split at h
  · cases h
    exact .two (by omega) (by omega)
  split at h
  · cases h
    refine .three (by omega) (by omega) ?_ ?_ ?_ ?_ <;>
      by_cases h₁ : b.toNat = 0xE0 <;> by_cases h₂ : b.toNat = 0xED <;> simp [h₁, h₂]
  split at h
  · cases h
    refine .four (by omega) (by omega) ?_ ?_ ?_ ?_ <;>
      by_cases h₁ : b.toNat = 0xF0 <;> by_cases h₂ : b.toNat = 0xF4 <;> simp [h₁, h₂]
  · cases h

/-- The continuation bytes that were promised complete a character, which is written as they and
the first byte. -/
theorem Promises.encode {b : UInt8} {lead : Lead} (hp : Promises b lead) {bytes rest : List UInt8}
    {v : Nat} (h : readTails lead.tails lead.low lead.high lead.bits bytes = (some v, rest)) :
    b :: bytes = String.utf8EncodeChar (Char.ofNat v) ++ rest := by
  cases hp with
  | one upper =>
    dsimp only at h
    obtain ⟨hv, rfl⟩ := readTails_zero_eq_some h
    have hvalid : v.isValidChar := .inl (by omega)
    rw [utf8EncodeChar_ofNat hvalid, if_pos (by omega), ofNat_eq_of_toNat hv]
    rfl
  | two lower upper =>
    dsimp only at h
    obtain ⟨t₁, tail, rfl, h₁, h⟩ := readTails_succ_eq_some h
    obtain ⟨hv, rfl⟩ := readTails_zero_eq_some h
    simp only [UInt8.toNat_ofNat] at h₁
    have hvalid : v.isValidChar := .inl (by omega)
    rw [utf8EncodeChar_ofNat hvalid, if_neg (by omega), if_pos (by omega),
      ofNat_eq_of_toNat (b := b) (by omega), ofNat_eq_of_toNat (b := t₁) (by omega)]
    rfl
  | three lower upper hlow hhigh first surrogate =>
    dsimp only at h
    obtain ⟨t₁, tail, rfl, h₁, h⟩ := readTails_succ_eq_some h
    obtain ⟨t₂, tail, rfl, h₂, h⟩ := readTails_succ_eq_some h
    obtain ⟨hv, rfl⟩ := readTails_zero_eq_some h
    simp only [UInt8.toNat_ofNat] at h₁ h₂
    have hvalid : v.isValidChar := by
      simp only [Nat.isValidChar]
      omega
    rw [utf8EncodeChar_ofNat hvalid, if_neg (by omega), if_neg (by omega), if_pos (by omega),
      ofNat_eq_of_toNat (b := b) (by omega), ofNat_eq_of_toNat (b := t₁) (by omega),
      ofNat_eq_of_toNat (b := t₂) (by omega)]
    rfl
  | four lower upper hlow hhigh first last =>
    dsimp only at h
    obtain ⟨t₁, tail, rfl, h₁, h⟩ := readTails_succ_eq_some h
    obtain ⟨t₂, tail, rfl, h₂, h⟩ := readTails_succ_eq_some h
    obtain ⟨t₃, tail, rfl, h₃, h⟩ := readTails_succ_eq_some h
    obtain ⟨hv, rfl⟩ := readTails_zero_eq_some h
    simp only [UInt8.toNat_ofNat] at h₁ h₂ h₃
    have hvalid : v.isValidChar := .inr (by omega)
    rw [utf8EncodeChar_ofNat hvalid, if_neg (by omega), if_neg (by omega), if_neg (by omega),
      ofNat_eq_of_toNat (b := b) (by omega), ofNat_eq_of_toNat (b := t₁) (by omega),
      ofNat_eq_of_toNat (b := t₂) (by omega), ofNat_eq_of_toNat (b := t₃) (by omega)]
    rfl

/-- A character that was read is written as it was. -/
theorem readPiece_eq_some {b : UInt8} {bytes rest : List UInt8} {c : Char}
    (h : readPiece b bytes = (some c, rest)) : b :: bytes = String.utf8EncodeChar c ++ rest := by
  unfold readPiece at h
  split at h
  · cases h
  · next lead hlead =>
    rcases htails : readTails lead.tails lead.low lead.high lead.bits bytes with ⟨_ | v, rest'⟩ <;>
      rw [htails] at h <;> cases h
    exact (promises_of_ofByte? hlead).encode htails

/-- **A text that was read strictly is written as it was.** -/
theorem encode_of_decode? {bytes : List UInt8} {s : List Char} (h : decode? bytes = some s) :
    encode s = bytes := by
  unfold decode? at h
  fun_induction pieces bytes generalizing s with
  | case1 =>
    cases h
    rfl
  | case2 b bytes piece =>
    rename_i ih
    rw [List.mapM_cons] at h
    obtain ⟨c, hc, h⟩ := Option.bind_eq_some_iff.1 h
    obtain ⟨text, htext, hs⟩ := Option.bind_eq_some_iff.1 h
    cases hs
    have hpiece : readPiece b bytes = (some c, piece.2) := Prod.ext hc rfl
    have hrest : encode text = piece.2 := ih htext
    rw [readPiece_eq_some hpiece, ← hrest]
    rfl

end LintHost.Text
