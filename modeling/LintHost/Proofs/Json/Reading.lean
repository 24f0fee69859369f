/-
LintHost/Proofs/Json/Reading.lean

Reading undoes spelling: whatever spells a value and whatever stands behind it, the
reader takes the spelling off the front and returns that value, or finds the text
malformed if the value is beyond its limits (`reads_value`).

The limits are the depth to which arrays and objects nest, and that every number
stays finite (`Value.isWithin`).  They are the only ones: which of its spellings a
value has makes no difference.  Only a number has to be told from what follows it,
so the text behind a piece must not go on with a number (`Stops`).
-/
import LintHost.Proofs.Json.Spelling

namespace LintHost.Json

variable {α : Type}

/-- Whether a value can be read: its arrays and objects nest at most `depth` deep, and its
numbers stay finite. -/
def Value.isWithin : (depth : Nat) → Value → Bool
  | _, .number n => n.staysFinite
  | 0, .array _ | 0, .object _ => false
  | depth + 1, .array items => items.all (Value.isWithin depth)
  | depth + 1, .object members => members.all fun m => Value.isWithin depth m.2
  | _, .null | _, .bool _ | _, .string _ => true

/-! ### Spaces and the text behind a number -/

/-- Whether a character can go on with a number. -/
def isNumeric (c : Char) : Bool :=
  c.isDigit || c == '.' || c == 'e' || c == 'E'

/-- A text that does not start with a character of a kind. -/
def Stops (p : Char → Bool) (s : List Char) : Prop :=
  ∀ c ∈ s.head?, p c = false

theorem Stops.nil (p : Char → Bool) : Stops p [] := fun _ h => by cases h

theorem stops_cons {p : Char → Bool} {c : Char} {s : List Char} : Stops p (c :: s) ↔ p c = false :=
  ⟨fun h => h c rfl, fun h _ hc => Option.some.inj hc ▸ h⟩

theorem Stops.mono {p q : Char → Bool} {s : List Char} (h : Stops q s)
    (hpq : ∀ c, q c = false → p c = false) : Stops p s :=
  fun c hc => hpq c (h c hc)

theorem isDigit_of_isNumeric {c : Char} (h : isNumeric c = false) : c.isDigit = false := by
  simp only [isNumeric, Bool.or_eq_false_iff] at h
  exact h.1.1.1

theorem isNumeric_of_isSpace {c : Char} (h : isSpace c = true) : isNumeric c = false := by
  simp only [isSpace, Bool.or_eq_true, beq_iff_eq] at h
  rcases h with ((rfl | rfl) | rfl) | rfl <;> rfl

theorem Gap.stops {gap s : List Char} (hg : Gap gap) (hs : Stops isNumeric s) :
    Stops isNumeric (gap ++ s) := by
  cases gap with
  | nil => exact hs
  | cons c gap => exact stops_cons.2 (isNumeric_of_isSpace (hg c List.mem_cons_self))

theorem skipSpace_gap {gap s : List Char} (hg : Gap gap) :
    skipSpace (gap ++ s) = skipSpace s :=
  List.dropWhile_append_of_pos hg

theorem skipSpace_cons {c : Char} {s : List Char} (h : isSpace c = false) :
    skipSpace (c :: s) = c :: s :=
  List.dropWhile_cons_of_neg (by simp [h])

/-! ### Numbers -/

theorem readDigits_append {digits rest : List Char} (hd : Digits digits)
    (hr : Stops Char.isDigit rest) : readDigits (digits ++ rest) = .ok (digits, rest) := by
  have htake : rest.takeWhile Char.isDigit = [] := by
    cases rest with
    | nil => rfl
    | cons c rest => exact List.takeWhile_cons_of_neg (by simp [stops_cons.1 hr])
  have hdrop : rest.dropWhile Char.isDigit = rest := by
    cases rest with
    | nil => rfl
    | cons c rest => exact List.dropWhile_cons_of_neg (by simp [stops_cons.1 hr])
  unfold readDigits
  rw [List.takeWhile_append_of_pos hd.digit, List.dropWhile_append_of_pos hd.digit, htake, hdrop,
    List.append_nil]
  cases digits with
  | nil => exact absurd rfl hd.ne_nil
  | cons => rfl

theorem readWhole_append {whole rest : List Char} (hw : Whole whole)
    (hr : Stops Char.isDigit rest) : readWhole (whole ++ rest) = .ok (whole, rest) := by
  rcases hw with rfl | ⟨hd, hz⟩
  · cases rest with
    | nil => rfl
    | cons c rest => simp [readWhole, stops_cons.1 hr]
  · obtain ⟨c, digits, rfl⟩ := List.exists_cons_of_ne_nil hd.ne_nil
    have hc : c ≠ '0' := fun h => hz (congrArg some h)
    rw [List.cons_append, readWhole]
    · exact readDigits_append hd hr
    · intro d s h
      exact absurd (List.cons.inj h).1 hc

theorem readFraction_append {digits fraction rest : List Char} (hf : SpellsFraction digits fraction)
    (hr : Stops (fun c => c.isDigit || c == '.') rest) :
    readFraction (fraction ++ rest) = .ok (digits, rest) := by
  cases hf with
  | none =>
    cases rest with
    | nil => rfl
    | cons c rest =>
      have hc : c ≠ '.' := by
        rintro rfl
        exact absurd (stops_cons.1 hr) (by decide)
      simp [readFraction, hc]
  | digits hd => exact readDigits_append hd (hr.mono fun c hc => (Bool.or_eq_false_iff.1 hc).1)

theorem readExponent_append {value : Option (Bool × List Char)} {exponent rest : List Char}
    (he : SpellsExponent value exponent) (hr : Stops isNumeric rest) :
    readExponent (exponent ++ rest) = .ok (value, rest) := by
  have hdigit : Stops Char.isDigit rest := hr.mono fun _ => isDigit_of_isNumeric
  cases he with
  | none =>
    cases rest with
    | nil => rfl
    | cons c rest =>
      have hc : ¬(c = 'e' ∨ c = 'E') := by
        rintro (rfl | rfl) <;> exact absurd (stops_cons.1 hr) (by decide)
      simp [readExponent, hc]
  | plain hm hd =>
    obtain ⟨d, digits, rfl⟩ := List.exists_cons_of_ne_nil hd.ne_nil
    have hdd := hd.digit d List.mem_cons_self
    have hplus : d ≠ '+' := by rintro rfl; exact absurd hdd (by decide)
    have hminus : d ≠ '-' := by rintro rfl; exact absurd hdd (by decide)
    have hread := readDigits_append hd hdigit
    simp only [List.cons_append] at hread
    simp [readExponent, hm, hplus, hminus, hread, bind, Except.bind, pure, Except.pure]
  | signed negative hm hd =>
    cases negative <;>
      simp [readExponent, hm, readDigits_append hd hdigit, bind, Except.bind, pure, Except.pure]

theorem SpellsExponent.stops {value : Option (Bool × List Char)} {exponent rest : List Char}
    (he : SpellsExponent value exponent) (hr : Stops isNumeric rest) :
    Stops (fun c => c.isDigit || c == '.') (exponent ++ rest) := by
  cases he with
  | none =>
    refine hr.mono fun c hc => ?_
    simp only [isNumeric, Bool.or_eq_false_iff] at hc ⊢
    exact hc.1.1
  | plain hm _ => rcases hm with rfl | rfl <;> exact stops_cons.2 rfl
  | signed _ hm _ => rcases hm with rfl | rfl <;> exact stops_cons.2 rfl

theorem SpellsFraction.stops {digits fraction rest : List Char}
    (hf : SpellsFraction digits fraction) (hr : Stops (fun c => c.isDigit || c == '.') rest) :
    Stops Char.isDigit (fraction ++ rest) := by
  cases hf with
  | none => exact hr.mono fun c hc => (Bool.or_eq_false_iff.1 hc).1
  | digits _ => exact stops_cons.2 rfl

theorem readNumber_append {n : Numeral} {s rest : List Char} (hs : SpellsUnsigned n s)
    (hr : Stops isNumeric rest) :
    readNumber n.negative (s ++ rest)
      = if n.staysFinite then .ok (.number n, rest) else .error .malformed := by
  obtain ⟨hw, hf, he⟩ := hs
  simp [readNumber, readWhole_append hw (hf.stops (he.stops hr)),
    readFraction_append hf (he.stops hr), readExponent_append he hr, bind, Except.bind, pure,
    Except.pure]

/-! ### Strings -/

theorem hexValue?_of_digitValue? {c : Char} {n : Nat} (h : Text.digitValue? 16 c = some n) :
    Text.hexValue? c = some n :=
  (Option.filter_eq_some_iff.1 h).1

theorem hexFour_append {n : Nat} {s : List Char} (hs : SpellsCode n s) (rest : List Char) :
    hexFour (s ++ rest) = .ok (n, rest) := by
  obtain ⟨hl, hn⟩ := hs
  match s, hl with
  | [a, b, c, d], _ =>
    simp only [Text.ofBase?, List.cons_ne_nil, if_false, List.foldlM_cons, List.foldlM_nil,
      Option.bind_eq_bind, Option.bind_eq_some_iff, Option.map_eq_some_iff] at hn
    obtain ⟨_, ⟨a', ha, rfl⟩, _, ⟨b', hb, rfl⟩, _, ⟨c', hc, rfl⟩, _, ⟨d', hd, rfl⟩, hn⟩ := hn
    cases hn
    simp [hexFour, hexValue?_of_digitValue? ha, hexValue?_of_digitValue? hb,
      hexValue?_of_digitValue? hc, hexValue?_of_digitValue? hd]

theorem readEscape_code {c : Char} {code : List Char} (h : SpellsCode c.toNat code)
    (rest : List Char) : readEscape ('u' :: (code ++ rest)) = .ok (c, rest) := by
  have hlow : ¬(0xDC00 ≤ c.toNat ∧ c.toNat ≤ 0xDFFF) := by
    have := c.valid
    simp only [UInt32.isValidChar, Nat.isValidChar] at this
    show ¬(0xDC00 ≤ c.val.toNat ∧ c.val.toNat ≤ 0xDFFF)
    omega
  have hhigh : ¬(0xD800 ≤ c.toNat ∧ c.toNat ≤ 0xDBFF) := by
    have := c.valid
    simp only [UInt32.isValidChar, Nat.isValidChar] at this
    show ¬(0xD800 ≤ c.val.toNat ∧ c.val.toNat ≤ 0xDBFF)
    omega
  simp [readEscape, readUnicode, hexFour_append h, hlow, hhigh, bind, Except.bind, pure,
    Except.pure]

theorem readEscape_pair {c : Char} {high low : List Char} (hc : 0x10000 ≤ c.toNat)
    (hh : SpellsCode (0xD800 + (c.toNat - 0x10000) / 0x400) high)
    (hl : SpellsCode (0xDC00 + (c.toNat - 0x10000) % 0x400) low) (rest : List Char) :
    readEscape ('u' :: (high ++ '\\' :: 'u' :: (low ++ rest))) = .ok (c, rest) := by
  have hbound : c.toNat < 0x110000 := by
    have := c.valid
    simp only [UInt32.isValidChar, Nat.isValidChar] at this
    show c.val.toNat < 0x110000
    omega
  generalize hk : c.toNat - 0x10000 = k at hh hl
  have hk' : c.toNat = 0x10000 + k := by omega
  have hpair : ¬(0xDC00 ≤ 0xD800 + k / 0x400 ∧ 0xD800 + k / 0x400 ≤ 0xDFFF) := by omega
  have hhigh : 0xD800 ≤ 0xD800 + k / 0x400 ∧ 0xD800 + k / 0x400 ≤ 0xDBFF := by omega
  have hlow : 0xDC00 ≤ 0xDC00 + k % 0x400 ∧ 0xDC00 + k % 0x400 ≤ 0xDFFF := by omega
  have hsum : 0x10000 + (0xD800 + k / 0x400 - 0xD800) * 0x400 + (0xDC00 + k % 0x400 - 0xDC00)
      = c.toNat := by omega
  simp only [readEscape, readUnicode, hexFour_append hh, readLowSurrogate, hexFour_append hl, bind,
    Except.bind, pure, Except.pure, if_neg hpair, if_pos hhigh, if_pos hlow, hsum, Char.ofNat_toNat]

/-- After an escape that has been read, the string goes on. -/
theorem readString_escaped {c : Char} {cs s text rest : List Char}
    (he : readEscape text = .ok (c, s)) (hs : readString s = .ok (cs, rest)) :
    readString ('\\' :: text) = .ok (c :: cs, rest) := by
  rw [readString]
  split
  · next hbad => rw [he] at hbad; cases hbad
  · next hok =>
    rw [he] at hok
    cases hok
    simp [hs, bind, Except.bind, pure, Except.pure]

theorem readString_append {cs s : List Char} (h : Quotes cs s) (rest : List Char) :
    readString (s ++ rest) = .ok (cs, rest) := by
  induction h with
  | close => rw [List.singleton_append, readString]
  | plain hc hq hb _ ih =>
    rw [List.cons_append, readString]
    · simp [Nat.not_lt.2 hc, ih, bind, Except.bind, pure, Except.pure]
    · exact hq
    · exact hb
  | short he _ ih =>
    refine readString_escaped ?_ ih
    show readEscape (_ :: (_ ++ rest)) = _
    rw [readEscape]
    · rw [he]
    · rintro rfl
      cases he
  | code hc _ ih =>
    rw [List.cons_append, List.cons_append, List.append_assoc]
    exact readString_escaped (readEscape_code hc _) ih
  | pair hc hh hl _ ih =>
    simp only [List.cons_append, List.append_assoc]
    exact readString_escaped (readEscape_pair hc hh hl _) ih

/-! ### Rows -/

/-- Whether a text starts with something that is neither a space nor a closing bracket. -/
def Opens (s : List Char) : Prop :=
  ∃ c t, s = c :: t ∧ isSpace c = false ∧ c ≠ ']' ∧ c ≠ '}'

/-- A piece is read off the front of a text exactly when it passes a test, and is malformed
otherwise. -/
structure Reads (piece : Reader α) (R : α → List Char → Prop) (ok : α → Bool) (limit : Nat) :
    Prop where
  opens : ∀ a s, R a s → Opens s
  append : ∀ a s rest, R a s → s.length ≤ limit → Stops isNumeric rest →
    piece (s ++ rest) = if ok a then .ok (a, rest) else .error .malformed

theorem readRow_gap (close : Char) (piece : Reader α) (fuel : Nat) {gap : List Char}
    (hg : Gap gap) (s : List Char) :
    readRow close piece fuel (gap ++ s) = readRow close piece fuel s := by
  cases fuel with
  | zero => rfl
  | succ fuel => simp only [readRow, skipSpace_gap hg]

section Closing

variable {close : Char} (hc : close = ']' ∨ close = '}')

include hc

theorem readRow_close (piece : Reader α) (fuel : Nat) (rest : List Char) :
    readRow close piece (fuel + 1) (close :: rest) = .ok ([], rest) := by
  rcases hc with rfl | rfl <;> simp [readRow, skipSpace_cons, isSpace]

namespace Reads

variable {piece : Reader α} {R : α → List Char → Prop} {ok : α → Bool} {limit : Nat}

omit hc in
theorem skipSpace_append (h : Reads piece R ok limit) {a : α} {s : List Char} (hs : R a s)
    (rest : List Char) : skipSpace (s ++ rest) = s ++ rest := by
  obtain ⟨c, t, rfl, hc, -⟩ := h.opens a s hs
  exact skipSpace_cons hc

omit hc in
/-- One piece of a row, from the comma in front of it to what follows its gap. -/
theorem readRow_step (h : Reads piece R ok limit) {fuel : Nat} {a : α}
    {before s after rest : List Char} (hb : Gap before) (hs : R a s) (ha : Gap after)
    (hl : s.length ≤ limit) (hr : Stops isNumeric rest) :
    readRow close piece (fuel + 1) (',' :: (before ++ (s ++ (after ++ rest))))
      = if ok a then (readRow close piece fuel rest).map fun p => (a :: p.1, p.2)
        else .error .malformed := by
  rw [readRow, skipSpace_cons rfl]
  simp only [skipSpace_gap hb, h.skipSpace_append hs, h.append a s _ hs hl (ha.stops hr)]
  split
  · simp only [bind, Except.bind, readRow_gap _ _ _ ha, pure, Except.pure]
    cases readRow close piece fuel rest <;> rfl
  · rfl

theorem readRow_append (h : Reads piece R ok limit) {as : List α} {s : List Char}
    (hrow : Row R as s) (hl : s.length ≤ limit) {fuel : Nat} (hf : as.length < fuel)
    (rest : List Char) :
    readRow close piece fuel (',' :: (s ++ close :: rest))
      = if as.all ok then .ok (as, rest) else .error .malformed := by
  have hclose : Stops isNumeric (close :: rest) := by
    rcases hc with rfl | rfl <;> exact stops_cons.2 rfl
  induction hrow generalizing fuel with
  | last hb hs ha =>
    obtain ⟨fuel, rfl⟩ := Nat.exists_eq_add_of_lt hf
    simp only [List.length_append] at hl
    simp only [List.append_assoc, List.length_singleton, Nat.add_assoc, Nat.add_comm 1]
    rw [h.readRow_step hb hs ha (by omega) hclose, readRow_close hc]
    simp [Except.map]
  | @cons a as _ _ _ _ hb hs ha _ ih =>
    obtain ⟨fuel, rfl⟩ := Nat.exists_eq_add_of_lt hf
    simp only [List.length_append, List.length_cons] at hl hf
    simp only [List.append_assoc, List.cons_append]
    rw [h.readRow_step hb hs ha (by omega) (stops_cons.2 rfl), ih (by omega) (by simp; omega)]
    cases hok : ok a <;> cases hall : as.all ok <;> simp [hok, hall, Except.map]

omit hc in
theorem length_le (h : Reads piece R ok limit) {as : List α} {s : List Char} (hrow : Row R as s) :
    as.length ≤ s.length := by
  have piece_length {a : α} {s : List Char} (hs : R a s) : 1 ≤ s.length := by
    obtain ⟨c, t, rfl, -⟩ := h.opens a s hs
    simp
  induction hrow with
  | last _ hs _ => have := piece_length hs; simp; omega
  | cons _ hs _ _ ih => have := piece_length hs; simp; omega

theorem readListing_append (h : Reads piece R ok limit) {as : List α} {s : List Char}
    (hs : Listing R as s) (hl : s.length ≤ limit) {fuel : Nat} (hf : s.length < fuel)
    (rest : List Char) :
    readListing close piece fuel (s ++ close :: rest)
      = if as.all ok then .ok (as, rest) else .error .malformed := by
  cases hs with
  | empty hg =>
    rw [readListing, skipSpace_gap hg]
    rcases hc with rfl | rfl <;> simp [skipSpace_cons, isSpace]
  | row hrow =>
    have hfirst : readListing close piece fuel (s ++ close :: rest)
        = readRow close piece (fuel + 1) (',' :: (s ++ close :: rest)) := by
      obtain ⟨before, t, hb, hopens, rfl⟩ : ∃ before t, Gap before ∧ Opens t ∧ s = before ++ t := by
        cases hrow with
        | last hb hs _ =>
          obtain ⟨c, t, rfl, hopens⟩ := h.opens _ _ hs
          exact ⟨_, _, hb, ⟨c, _, rfl, hopens⟩, rfl⟩
        | cons hb hs _ _ =>
          obtain ⟨c, t, rfl, hopens⟩ := h.opens _ _ hs
          exact ⟨_, _, hb, ⟨c, _, rfl, hopens⟩, rfl⟩
      obtain ⟨c, t, rfl, hspace, hsquare, hcurly⟩ := hopens
      have hne : c ≠ close := by rcases hc with rfl | rfl <;> assumption
      have hcomma : isSpace ',' = false := rfl
      simp only [readListing, readRow, skipSpace_cons hcomma, List.append_assoc, skipSpace_gap hb,
        List.cons_append, skipSpace_cons hspace, if_neg hne]
    rw [hfirst, h.readRow_append hc hrow hl (by have := h.length_le hrow; omega)]

end Reads

end Closing

/-! ### Members and values -/

theorem Labelled.opens {R : Value → List Char → Prop} {m : String × Value} {s : List Char}
    (h : Labelled R m s) : Opens s := by
  cases h with
  | mk => exact ⟨'"', _, rfl, by decide⟩

theorem reads_member {item : Reader Value} {R : Value → List Char → Prop} {ok : Value → Bool}
    {limit : Nat} (h : Reads item R ok limit) :
    Reads (readMember item) (Labelled R) (fun m => ok m.2) limit where
  opens _ _ hs := hs.opens
  append m s rest hs hl hr := by
    cases hs with
    | @mk name quoted before after s v hq hb ha hs =>
      simp only [List.length_cons, List.length_append] at hl
      have hcolon : isSpace ':' = false := rfl
      simp only [List.cons_append, List.append_assoc, readMember, readString_append hq, bind,
        Except.bind, skipSpace_gap hb, skipSpace_cons hcolon, skipSpace_gap ha,
        h.skipSpace_append hs, h.append v s rest hs (by omega) hr]
      cases ok v <;> simp [pure, Except.pure]

theorem opens_of_isDigit {c : Char} (hc : c.isDigit = true) (s : List Char) : Opens (c :: s) := by
  refine ⟨c, s, rfl, ?_, ?_, ?_⟩
  · cases h : isSpace c with
    | false => rfl
    | true =>
      have hd := isDigit_of_isNumeric (isNumeric_of_isSpace h)
      rw [hc] at hd
      cases hd
  · rintro rfl
    cases hc
  · rintro rfl
    cases hc

/-- A numeral starts with a digit. -/
theorem SpellsUnsigned.exists_digit {n : Numeral} {s : List Char} (h : SpellsUnsigned n s) :
    ∃ c t, s = c :: t ∧ c.isDigit = true := by
  obtain ⟨hw, -, -⟩ := h
  rcases hw with hw | ⟨hd, -⟩
  · rw [hw]
    exact ⟨'0', _, rfl, rfl⟩
  · obtain ⟨c, digits, hw⟩ := List.exists_cons_of_ne_nil hd.ne_nil
    rw [hw]
    exact ⟨c, _, rfl, hd.digit c (hw ▸ List.mem_cons_self)⟩

theorem Spells.opens {v : Value} {s : List Char} (h : Spells v s) : Opens s := by
  cases h with
  | unsigned _ hs =>
    obtain ⟨c, t, rfl, hc⟩ := hs.exists_digit
    exact opens_of_isDigit hc t
  | null | true | false | negative | string | array | object => exact ⟨_, _, rfl, by decide⟩

theorem readValue_of_isDigit {c : Char} (hc : c.isDigit = true) (fuel depth : Nat)
    (s : List Char) : readValue fuel depth (c :: s) = readNumber false (c :: s) := by
  unfold readValue
  split <;> simp_all

theorem bind_ite {β γ : Type} (ok : Bool) (r : β) (f : β → γ) :
    ((if ok then .ok r else .error .malformed : Except Fault β) >>= fun r => pure (f r))
      = if ok then .ok (f r) else .error .malformed := by
  cases ok <;> rfl

/-- A value is read if it is when it is an array or an object. -/
theorem reads_value_of {limit depth : Nat}
    (harray : ∀ items s rest, Listing Spells items s → s.length ≤ limit →
      readValue (limit + 1) depth ('[' :: (s ++ ']' :: rest))
        = if (Value.array items).isWithin depth then .ok (.array items, rest)
          else .error .malformed)
    (hobject : ∀ members s rest, Listing (Labelled Spells) members s → s.length ≤ limit →
      readValue (limit + 1) depth ('{' :: (s ++ '}' :: rest))
        = if (Value.object members).isWithin depth then .ok (.object members, rest)
          else .error .malformed) :
    Reads (readValue (limit + 1) depth) Spells (Value.isWithin depth) limit where
  opens _ _ hs := hs.opens
  append v s rest hs hl hr := by
    cases hs with
    | null => simp [readValue, Value.isWithin, readWord]
    | true => simp [readValue, Value.isWithin, readWord]
    | false => simp [readValue, Value.isWithin, readWord]
    | unsigned hn hs =>
      have hread := readNumber_append hs hr
      obtain ⟨c, t, rfl, hc⟩ := hs.exists_digit
      rw [hn, List.cons_append] at hread
      rw [List.cons_append, readValue_of_isDigit hc, hread]
      simp [Value.isWithin]
    | negative hn hs =>
      have hread := readNumber_append hs hr
      rw [hn] at hread
      rw [List.cons_append, readValue, hread]
      simp [Value.isWithin]
    | string hq =>
      rw [List.cons_append, readValue]
      simp [readString_append hq, Value.isWithin, bind, Except.bind, pure, Except.pure]
    | array hs =>
      simp only [List.length_cons, List.length_append] at hl
      simpa using harray _ _ rest hs (by omega)
    | object hs =>
      simp only [List.length_cons, List.length_append] at hl
      simpa using hobject _ _ rest hs (by omega)

/-- Reading takes the spelling of a value off the front of a text. -/
theorem reads_value (limit depth : Nat) :
    Reads (readValue (limit + 1) depth) Spells (Value.isWithin depth) limit := by
  induction depth with
  | zero => exact reads_value_of (fun _ _ _ _ _ => rfl) (fun _ _ _ _ _ => rfl)
  | succ depth ih =>
    refine reads_value_of (fun items s rest hs hl => ?_) (fun members s rest hs hl => ?_)
    · rw [readValue, ih.readListing_append (.inl rfl) hs hl (by omega)]
      exact bind_ite _ _ _
    · rw [readValue, (reads_member ih).readListing_append (.inr rfl) hs hl (by omega)]
      exact bind_ite _ _ _

/-- The first value of a text that spells one and nothing else. -/
theorem readFirst_of_spells {v : Value} {s : List Char} (hs : Spells v s) :
    readFirst s = if v.isWithin maxDepth then .ok (v, []) else .error .malformed := by
  have h := (reads_value s.length maxDepth).append v s [] hs (Nat.le_refl _) (.nil _)
  have hskip := (reads_value s.length maxDepth).skipSpace_append hs []
  rw [List.append_nil] at h hskip
  rw [readFirst, hskip, h]

end LintHost.Json
