/-
LintHost/Proofs/Text/Raw.lean

Texts of the system beside texts.  A text is shown as it is (`text_ofString`), and a text
of the system that is one is told by what is shown for it (`ofString_text`).  What is
shown for any other has replacement characters, but the byte that ends texts of the
system is neither lost nor made by showing (`hasNul_ofString_text`).
-/
import LintHost.Proofs.Text.Decoding
import LintHost.Proofs.Text.Encoding
import LintHost.Text.Raw

namespace LintHost

/-! ### Bytes that are skipped -/

namespace Text

/-- Continuation bytes are not zero. -/
theorem zero_mem_readTails (n : Nat) {low : UInt8} (high : UInt8) (bits : Nat) (bytes : List UInt8)
    (h : 0 < low) : 0 ∈ (readTails n low high bits bytes).2 ↔ 0 ∈ bytes := by
  induction n generalizing low high bits bytes with
  | zero => rfl
  | succ n ih =>
    cases bytes with
    | nil => rfl
    | cons b rest =>
      rw [readTails]
      split
      · next hb =>
        have hne : (0 : UInt8) ≠ b := by
          rintro rfl
          exact absurd (UInt8.lt_of_lt_of_le h hb.1) (UInt8.lt_irrefl 0)
        rw [ih 0xBF _ rest (by decide), List.mem_cons, or_iff_right hne]
      · rfl

theorem low_pos_of_ofByte? {b : UInt8} {lead : Lead} (h : Lead.ofByte? b = some lead) :
    0 < lead.low := by
  unfold Lead.ofByte? at h
  repeat' split at h
  all_goals cases h
  all_goals simp

/-- A broken part has no zero byte. -/
theorem zero_mem_of_readPiece {b : UInt8} {bytes rest : List UInt8}
    (h : readPiece b bytes = (none, rest)) : 0 ∈ b :: bytes ↔ 0 ∈ rest := by
  have hne : (0 : UInt8) ≠ b := by
    rintro rfl
    cases h
  rw [List.mem_cons, or_iff_right hne]
  unfold readPiece at h
  split at h
  · cases h
    rfl
  · next lead hlead =>
    have hskip := zero_mem_readTails lead.tails lead.high lead.bits bytes (low_pos_of_ofByte? hlead)
    rw [(Prod.mk.inj h).2] at hskip
    exact hskip.symm

/-- Reading bytes lossily and writing them again neither loses nor makes a zero byte. -/
theorem zero_mem_encode_decodeLossy (bytes : List UInt8) :
    0 ∈ encode (decodeLossy bytes) ↔ 0 ∈ bytes := by
  unfold decodeLossy
  fun_induction pieces bytes with
  | case1 => rfl
  | case2 b bytes piece ih =>
    show 0 ∈ String.utf8EncodeChar (piece.1.getD replacement)
      ++ encode ((pieces piece.2).map fun p => p.getD replacement) ↔ 0 ∈ b :: bytes
    rw [List.mem_append, ih]
    -- a broken part is shown as one character and a whole one as it is; neither brings in a zero
    rcases h : piece with ⟨_ | c, rest⟩
    · rw [zero_mem_of_readPiece h]
      exact or_iff_right (show (0 : UInt8) ∉ String.utf8EncodeChar replacement by decide)
    · rw [readPiece_eq_some h, List.mem_append]
      rfl

end Text

namespace RawText

/-- A text is shown as it is. -/
@[simp] theorem text_ofString (s : String) : (ofString s).text = s := by
  rw [text, ofString, Text.decodeLossy_of_decode? (Text.decode?_encode _), String.ofList_toList]

/-- What is shown for a text of the system ends where it ends. -/
theorem hasNul_ofString_text (r : RawText) : (ofString r.text).hasNul = r.hasNul := by
  rw [Bool.eq_iff_iff, hasNul, hasNul, List.contains_iff_mem, List.contains_iff_mem, ofString, text,
    String.toList_ofList, Text.zero_mem_encode_decodeLossy]

end RawText

end LintHost
