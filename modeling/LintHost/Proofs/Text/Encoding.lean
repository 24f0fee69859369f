/-
LintHost/Proofs/Text/Encoding.lean

Text that is written as UTF-8 is read again (`decode?_encode`).  The first byte of a
character says how many follow and where the next one lies (`Lead.ofByte?`), and each of
those that follow brings six bits (`readTails_ofNat`).
-/
import LintHost.Text.Utf8
import Mathlib.Tactic.Common

namespace LintHost.Text

/-- One continuation byte within its range brings six bits. -/
theorem readTails_ofNat {b low high : Nat} (n bits : Nat) (rest : List UInt8) (hb : b < 256)
    (hl : low ≤ b) (hh : b ≤ high) (hhigh : high < 256) :
    readTails (n + 1) (UInt8.ofNat low) (UInt8.ofNat high) bits (UInt8.ofNat b :: rest)
      = readTails n 0x80 0xBF (bits * 64 + (b - 0x80)) rest := by
  have hto : ∀ {k : Nat}, k < 256 → (UInt8.ofNat k).toNat = k := fun hk =>
    UInt8.toNat_ofNat_of_lt' hk
  have hrange : UInt8.ofNat low ≤ UInt8.ofNat b ∧ UInt8.ofNat b ≤ UInt8.ofNat high := by
    rw [UInt8.le_iff_toNat_le, UInt8.le_iff_toNat_le, hto hb, hto hhigh, hto (by omega)]
    exact ⟨hl, hh⟩
  rw [readTails, if_pos hrange, hto hb]

/-- One continuation byte that is not the first of them brings six bits. -/
theorem readTail_ofNat {b : Nat} (n bits : Nat) (rest : List UInt8) (hl : 0x80 ≤ b)
    (hh : b ≤ 0xBF) : readTails (n + 1) 0x80 0xBF bits (UInt8.ofNat b :: rest)
      = readTails n 0x80 0xBF (bits * 64 + (b - 0x80)) rest :=
  readTails_ofNat n bits rest (by omega) hl hh (by decide)

/-- What a first byte promises, by its number. -/
theorem ofByte?_ofNat {b : Nat} (hb : b < 256) : Lead.ofByte? (UInt8.ofNat b)
    = if b < 0x80 then some ⟨0, 0x80, 0xBF, b⟩
      else if b < 0xC2 then none
      else if b < 0xE0 then some ⟨1, 0x80, 0xBF, b - 0xC0⟩
      else if b < 0xF0 then some ⟨2, UInt8.ofNat (if b = 0xE0 then 0xA0 else 0x80),
        UInt8.ofNat (if b = 0xED then 0x9F else 0xBF), b - 0xE0⟩
      else if b < 0xF5 then some ⟨3, UInt8.ofNat (if b = 0xF0 then 0x90 else 0x80),
        UInt8.ofNat (if b = 0xF4 then 0x8F else 0xBF), b - 0xF0⟩
      else none := by
  have hto : (UInt8.ofNat b).toNat = b := UInt8.toNat_ofNat_of_lt' hb
  have hite : ∀ (k x y : Nat), k < 256 →
      (if (UInt8.ofNat b == UInt8.ofNat k) = true then UInt8.ofNat x else UInt8.ofNat y)
        = UInt8.ofNat (if b = k then x else y) := fun k x y hk => by
    have hiff : (UInt8.ofNat b == UInt8.ofNat k) = true ↔ b = k := by
      rw [beq_iff_eq, ← UInt8.toNat_inj, hto, UInt8.toNat_ofNat_of_lt' hk]
    simp only [hiff]
    split <;> rfl
  have hlt : ∀ k, k < 256 → (UInt8.ofNat b < UInt8.ofNat k ↔ b < k) := fun k hk => by
    rw [UInt8.lt_iff_toNat_lt, hto, UInt8.toNat_ofNat_of_lt' hk]
  unfold Lead.ofByte?
  rw [hto, ← hite 0xE0 0xA0 0x80 (by decide), ← hite 0xED 0x9F 0xBF (by decide),
    ← hite 0xF0 0x90 0x80 (by decide), ← hite 0xF4 0x8F 0xBF (by decide)]
  simp only [← hlt 0x80 (by decide), ← hlt 0xC2 (by decide), ← hlt 0xE0 (by decide),
    ← hlt 0xF0 (by decide), ← hlt 0xF5 (by decide)]
  rfl

/-- The bytes of one character are read as that character, and nothing after them is. -/
theorem readPiece_encode (c : Char) (rest : List UInt8) : ∃ b bytes,
    String.utf8EncodeChar c = b :: bytes ∧ readPiece b (bytes ++ rest) = (some c, rest) := by
  have hvalid : c.toNat < 0xD800 ∨ 0xDFFF < c.toNat ∧ c.toNat < 0x110000 := c.valid
  have hv : Char.ofNat c.toNat = c := Char.ofNat_toNat c
  have hto : c.val.toNat = c.toNat := rfl
  generalize c.toNat = v at hvalid hv hto
  -- the bits of the first byte and of those that follow make the number up again
  have hpiece : ∀ {b : UInt8} {lead : Lead} {bytes : List UInt8}, Lead.ofByte? b = some lead →
      readTails lead.tails lead.low lead.high lead.bits (bytes ++ rest) = (some v, rest) →
      readPiece b (bytes ++ rest) = (some c, rest) := fun hlead htails => by
    simp only [readPiece, hlead, htails, Option.map_some, hv]
  have hdone : ∀ {bits : Nat}, bits = v → readTails 0 0x80 0xBF bits rest = (some v, rest) :=
    fun e => by rw [readTails, e]
  simp only [String.utf8EncodeChar, hto]
  split_ifs with h1 h2 h3
  · exact ⟨_, _, rfl, hpiece ((ofByte?_ofNat (by omega)).trans (if_pos (by omega))) (hdone rfl)⟩
  · refine ⟨_, _, rfl, hpiece ((ofByte?_ofNat (by omega)).trans ((if_neg (by omega)).trans
      ((if_neg (by omega)).trans (if_pos (by omega))))) ?_⟩
    refine (readTail_ofNat 0 _ _ (by omega) (by omega)).trans (hdone ?_)
    dsimp only
    omega
  · refine ⟨_, _, rfl, hpiece ((ofByte?_ofNat (by omega)).trans ((if_neg (by omega)).trans
      ((if_neg (by omega)).trans ((if_neg (by omega)).trans (if_pos (by omega)))))) ?_⟩
    refine (readTails_ofNat 1 _ _ (by omega) (by split <;> omega) (by split <;> omega)
      (by split <;> omega)).trans ?_
    refine (readTail_ofNat 0 _ _ (by omega) (by omega)).trans (hdone ?_)
    dsimp only
    omega
  · refine ⟨_, _, rfl, hpiece ((ofByte?_ofNat (by omega)).trans ((if_neg (by omega)).trans
      ((if_neg (by omega)).trans ((if_neg (by omega)).trans ((if_neg (by omega)).trans
      (if_pos (by omega))))))) ?_⟩
    refine (readTails_ofNat 2 _ _ (by omega) (by split <;> omega) (by split <;> omega)
      (by split <;> omega)).trans ?_
    refine (readTail_ofNat 1 _ _ (by omega) (by omega)).trans ?_
    refine (readTail_ofNat 0 _ _ (by omega) (by omega)).trans (hdone ?_)
    dsimp only
    omega

theorem pieces_encode (s : List Char) : pieces (encode s) = s.map some := by
  induction s with
  | nil => rw [encode, List.flatMap_nil, pieces, List.map_nil]
  | cons c s ih =>
    obtain ⟨b, bytes, hc, hp⟩ := readPiece_encode c (encode s)
    have he : encode (c :: s) = b :: (bytes ++ encode s) := by
      rw [encode, List.flatMap_cons, hc]
      rfl
    rw [he, pieces, hp, ih, List.map_cons]

/-- Text that is written is read again. -/
theorem decode?_encode (s : List Char) : decode? (encode s) = some s := by
  rw [decode?, pieces_encode, List.mapM_map]
  induction s with
  | nil => rfl
  | cons c s ih =>
    rw [List.mapM_cons, ih]
    rfl

end LintHost.Text
