/-
LintHost/Text/Utf8.lean

Reading bytes as UTF-8.  `pieces` cuts a byte sequence into scalar values and
broken parts; a broken part is the longest run of bytes that starts some
well-formed sequence but cannot be completed, or one byte that starts none.
Strict reading refuses every broken part, lossy reading puts one replacement
character in its place.
Main facts: the two agree wherever the strict one answers (`decodeLossy_of_decode?`), and
a text that is cut behind the bytes of a part of it is cut there (`cutAt_append`).
-/

namespace LintHost.Text

/-- What the first byte of a sequence promises: how many continuation bytes follow,
the range of the first of them, and the bits that the first byte carries. -/
structure Lead where
  tails : Nat
  low : UInt8
  high : UInt8
  bits : Nat

/-- The promise of a first byte; `none` if no well-formed sequence starts with it. -/
def Lead.ofByte? (b : UInt8) : Option Lead :=
  if b < 0x80 then some ⟨0, 0x80, 0xBF, b.toNat⟩
  else if b < 0xC2 then none
  else if b < 0xE0 then some ⟨1, 0x80, 0xBF, b.toNat - 0xC0⟩
  else if b < 0xF0 then
    some ⟨2, if b == 0xE0 then 0xA0 else 0x80, if b == 0xED then 0x9F else 0xBF, b.toNat - 0xE0⟩
  else if b < 0xF5 then
    some ⟨3, if b == 0xF0 then 0x90 else 0x80, if b == 0xF4 then 0x8F else 0xBF, b.toNat - 0xF0⟩
  else none

/-- Reads `n` continuation bytes, the first within `low` and `high`, onto the bits read so
far.  Stops in front of the first byte that does not fit. -/
def readTails : (n : Nat) → (low high : UInt8) → (bits : Nat) → List UInt8 →
    Option Nat × List UInt8
  | 0, _, _, bits, rest => (some bits, rest)
  | _ + 1, _, _, _, [] => (none, [])
  | n + 1, low, high, bits, b :: rest =>
    if low ≤ b ∧ b ≤ high then
      readTails n 0x80 0xBF (bits * 64 + (b.toNat - 0x80)) rest
    else (none, b :: rest)

theorem readTails_length_le (n : Nat) (low high : UInt8) (bits : Nat) (rest : List UInt8) :
    (readTails n low high bits rest).2.length ≤ rest.length := by
  induction n generalizing low high bits rest with
  | zero => simp [readTails]
  | succ n ih =>
    cases rest with
    | nil => simp [readTails]
    | cons b rest =>
      simp only [readTails]
      split
      · exact Nat.le_trans (ih _ _ _ _) (by simp)
      · simp

/-- The sequence that starts with `b`: its scalar value, or `none` for a broken part,
and the bytes after it. -/
def readPiece (b : UInt8) (rest : List UInt8) : Option Char × List UInt8 :=
  match Lead.ofByte? b with
  | none => (none, rest)
  | some lead =>
    let (bits, rest) := readTails lead.tails lead.low lead.high lead.bits rest
    (bits.map Char.ofNat, rest)

theorem readPiece_length_le (b : UInt8) (rest : List UInt8) :
    (readPiece b rest).2.length ≤ rest.length := by
  unfold readPiece
  split
  · simp
  · exact readTails_length_le _ _ _ _ _

/-- The scalar values of a byte sequence in order, `none` for each broken part. -/
def pieces : List UInt8 → List (Option Char)
  | [] => []
  | b :: rest =>
    let piece := readPiece b rest
    piece.1 :: pieces piece.2
termination_by bytes => bytes.length
decreasing_by exact Nat.lt_succ_of_le (readPiece_length_le b rest)

/-- The text of a byte sequence, if it is well-formed UTF-8. -/
def decode? (bytes : List UInt8) : Option (List Char) :=
  (pieces bytes).mapM id

/-- The replacement character. -/
def replacement : Char := '\uFFFD'

/-- The text of a byte sequence, with a replacement character for each broken part. -/
def decodeLossy (bytes : List UInt8) : List Char :=
  (pieces bytes).map fun piece => piece.getD replacement

/-- The bytes of a text. -/
def encode (s : List Char) : List UInt8 :=
  s.flatMap String.utf8EncodeChar

/-- A text in two parts: the characters that start before a byte of it, and the others. -/
def cutAt (offset : Nat) : List Char → List Char × List Char
  | [] => ([], [])
  | c :: rest =>
    if offset = 0 then ([], c :: rest)
    else
      let (before, after) := cutAt (offset - c.utf8Size) rest
      (c :: before, after)

/-- Behind the bytes of its front part a text is cut into its parts. -/
theorem cutAt_append (front back : List Char) :
    cutAt (encode front).length (front ++ back) = (front, back) := by
  induction front with
  | nil => cases back <;> rfl
  | cons c front ih =>
    have hlength : (encode (c :: front)).length = c.utf8Size + (encode front).length := by
      rw [encode, List.flatMap_cons, List.length_append, String.length_utf8EncodeChar]
      rfl
    have hpos : c.utf8Size + (encode front).length ≠ 0 :=
      Nat.ne_of_gt (Nat.add_pos_left c.utf8Size_pos _)
    rw [hlength, List.cons_append, cutAt, if_neg hpos, Nat.add_sub_cancel_left, ih]

/-- Lossy reading agrees with strict reading on well-formed input. -/
theorem decodeLossy_of_decode? {bytes : List UInt8} {s : List Char}
    (h : decode? bytes = some s) : decodeLossy bytes = s := by
  unfold decode? at h
  unfold decodeLossy
  generalize pieces bytes = ps at h
  induction ps generalizing s with
  | nil => simp_all
  | cons p ps ih =>
    cases p with
    | none => simp at h
    | some c =>
      simp only [List.mapM_cons, id_eq, Option.bind_eq_bind, Option.bind_some] at h
      cases hs : List.mapM id ps with
      | none => simp [hs] at h
      | some t =>
        simp only [hs, Option.bind_some, Option.pure_def, Option.some.injEq] at h
        simp [← h, ih hs]

end LintHost.Text
