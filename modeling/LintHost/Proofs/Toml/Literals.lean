/-
LintHost/Proofs/Toml/Literals.lean

Literals that can be read again.  A literal is steady if its tokens are told apart from
what comes behind them, hold no end of a statement, and are read as a value like its own
in front of anything that ends a value.  What stands in brackets is a row of parts with
commas between them (`Row`); a row is read again part by part.  Main statement: what
reading gives is steady (`steady_of_readValue`), also inline tables, which are written
in the order of their trees.
-/
import LintHost.Proofs.Toml.Cutting
import LintHost.Proofs.Toml.Regrowth

namespace LintHost.Toml

/-! ### Gaps -/

/-- A gap after which nothing need be minded. -/
structure FreeGap (g : List Token) : Prop where
  gap : g.all Token.isGap = true
  loose : Loose g

theorem Clear.of_suffix {ts rest : List Token} (h : Clear ts) (hs : rest <:+ ts) : Clear rest := by
  obtain ⟨front, rfl⟩ := hs
  exact h.right

/-- A gap in front of something is free. -/
theorem Clear.freeGap {ts : List Token} (h : Clear ts) (hne : ts.dropWhile Token.isGap ≠ []) :
    FreeGap (ts.takeWhile Token.isGap) := by
  refine ⟨List.all_takeWhile, ?_⟩
  have hhead := List.head?_dropWhile_not Token.isGap ts
  rw [← List.takeWhile_append_dropWhile (p := Token.isGap) (l := ts)] at h
  cases hd : ts.dropWhile Token.isGap with
  | nil => exact absurd hd hne
  | cons t rest =>
    rw [hd] at h hhead
    refine h.loose List.all_takeWhile ?_
    rintro rfl
    cases hhead

theorem takeKind_append {kind : Token → Bool} {g ts : List Token} (hg : g.all kind = true)
    (ht : ∀ t, ts.head? = some t → kind t = false) : takeKind kind (g ++ ts) = (g, ts) := by
  obtain ⟨htake, hdrop⟩ := span_append hg ht
  rw [takeKind, htake, hdrop]

/-! ### What ends a value -/

/-- Whether no word goes on with the tokens, and no date either. -/
structure Ends (ts : List Token) : Prop where
  word : takeWord ts = ([], ts)
  time : startsTime ts = false

/-- Whether a character ends a value: a comma or a closing bracket. -/
def isStop (c : Char) : Bool :=
  c == ',' || c == ']' || c == '}'

theorem isStop_iff {c : Char} : isStop c = true ↔ c = ',' ∨ c = ']' ∨ c = '}' := by
  simp [isStop, or_assoc]

theorem takeWord_of_head {ts : List Token}
    (h : ∀ c, ts.head? = some (.char c) → isWordPart c = false) : takeWord ts = ([], ts) := by
  fun_cases takeWord ts with
  | case1 c ts hc => rw [h c rfl] at hc; cases hc
  | case2 | case3 => rfl

theorem Token.not_isWordPart_of_isGap {c : Char} (h : (Token.char c).isGap = true) :
    isWordPart c = false ∧ c.isDigit = false := by
  rcases isBlank_iff.1 h with e | e <;> cases e <;> exact ⟨by decide, by decide⟩

theorem not_isWordPart_of_isStop {c : Char} (h : isStop c = true) :
    isWordPart c = false ∧ c.isDigit = false ∧ (Token.char c).isGap = false := by
  rcases isStop_iff.1 h with rfl | rfl | rfl <;> exact ⟨by decide, by decide, by decide⟩

theorem startsTime_eq_true {ts : List Token} (h : startsTime ts = true) :
    ∃ c rest, ts = .char ' ' :: .char c :: rest ∧ c.isDigit = true := by
  unfold startsTime at h
  split at h
  · exact ⟨_, _, rfl, h⟩
  · cases h

/-- Values end before a gap, whether it is the last or something that ends a value follows. -/
theorem ends_gap {g ts : List Token} (hg : g.all Token.isGap = true)
    (hts : ts = [] ∨ ∃ c rest, isStop c = true ∧ ts = .char c :: rest) : Ends (g ++ ts) := by
  have hstop : ∀ c, ts.head? = some (.char c) → isWordPart c = false ∧ c.isDigit = false := by
    rcases hts with rfl | ⟨c, rest, hc, rfl⟩
    · simp
    · rintro d hd
      cases hd
      exact ⟨(not_isWordPart_of_isStop hc).1, (not_isWordPart_of_isStop hc).2.1⟩
  have hhead : ∀ {g : List Token}, g.all Token.isGap = true → ∀ c,
      (g ++ ts).head? = some (.char c) → isWordPart c = false ∧ c.isDigit = false := by
    intro g hg c hc
    cases g with
    | nil => exact hstop c hc
    | cons t g =>
      rw [List.all_cons, Bool.and_eq_true] at hg
      cases hc
      exact Token.not_isWordPart_of_isGap hg.1
  refine ⟨takeWord_of_head fun c hc => (hhead hg c hc).1, Bool.eq_false_iff.2 fun ht => ?_⟩
  obtain ⟨c, rest, e, hc⟩ := startsTime_eq_true ht
  cases g with
  | nil =>
    rcases hts with rfl | ⟨d, rest', hd, rfl⟩
    · cases e
    · cases e
      exact absurd hd (by decide)
  | cons t g =>
    rw [List.all_cons, Bool.and_eq_true] at hg
    obtain ⟨-, e⟩ := List.cons.inj e
    rw [(hhead hg.2 c (congrArg List.head? e)).2] at hc
    cases hc

/-! ### Words -/

theorem takeWord_eq {ts rest : List Token} {w : List Char} (h : takeWord ts = (w, rest)) :
    ts = w.map Token.char ++ rest ∧ w.all isWordPart = true ∧ takeWord rest = ([], rest) := by
  fun_induction takeWord ts generalizing w with
  | case1 c ts hc word rest' hw ih =>
    cases h
    obtain ⟨rfl, hall, hrest⟩ := ih hw
    exact ⟨rfl, by simp [hc, hall], hrest⟩
  | case2 c ts hc =>
    cases h
    exact ⟨rfl, rfl, by rw [takeWord, if_neg hc]⟩
  | case3 ts hts =>
    cases h
    refine ⟨rfl, rfl, takeWord_of_head fun c hc => ?_⟩
    obtain ⟨rest', e⟩ := List.head?_eq_some_iff.1 hc
    exact absurd e (hts c rest')

theorem takeWord_append {w : List Char} {rest : List Token} (hw : w.all isWordPart = true)
    (hr : takeWord rest = ([], rest)) : takeWord (w.map Token.char ++ rest) = (w, rest) := by
  induction w with
  | nil => exact hr
  | cons c w ih =>
    rw [List.all_cons, Bool.and_eq_true] at hw
    rw [List.map_cons, List.cons_append, takeWord, if_pos hw.1, ih hw.2]

theorem readWord_of_plain {ts rest : List Token} {w : List Char} (h : takeWord ts = (w, rest))
    (hd : ¬(afterDate? w = some [] ∧ startsTime rest = true)) :
    readWord ts = (Value.ofWord? w).map fun v => (⟨v, w.map Token.char⟩, rest) := by
  simp only [readWord, h, if_neg hd, Option.map_eq_bind]
  rfl

theorem readWord_of_time {ts rest : List Token} {w time : List Char}
    (h : takeWord ts = (w, .char ' ' :: (time.map Token.char ++ rest)))
    (hd : afterDate? w = some []) (hs : startsTime (.char ' ' :: (time.map Token.char ++ rest)))
    (ht : takeWord (time.map Token.char ++ rest) = (time, rest)) :
    readWord ts = (Value.ofWord? (w ++ ' ' :: time)).map fun v =>
      (⟨v, (w ++ ' ' :: time).map Token.char⟩, rest) := by
  simp only [readWord, h, if_pos (And.intro hd hs), List.tail_cons, ht, Option.map_eq_bind]
  rfl

theorem isWordPart_of_isDigit {c : Char} (h : c.isDigit = true) : isWordPart c = true := by
  simp [isWordPart, Char.isAlphanum, h]

theorem ofWord?_nil : Value.ofWord? [] = none := by
  rfl

theorem alike_of_ofWord? {s : List Char} {v : Value} (h : Value.ofWord? s = some v) :
    v.Alike v := by
  refine (alike_scalar ?_ ?_).2 rfl <;> rintro _ rfl <;> revert h <;> unfold Value.ofWord? <;>
    split_ifs <;> simp <;> split <;> simp

/-- Whether a literal is written as one word, or as a date and a time with a space between, and is
read again in front of what ends it. -/
structure IsWord (word : List Char) (l : Literal) : Prop where
  tokens : l.tokens = word.map Token.char
  alike : l.value.Alike l.value
  head : ∃ c, word.head? = some c ∧ isWordPart c = true
  parts : ∀ c ∈ word, isWordPart c = true ∨ c = ' '
  again : ∀ other, Ends other → readWord (l.tokens ++ other) = some (l, other)

theorem exists_head?_append {w : List Char} (hw : w.all isWordPart = true) (hne : w ≠ [])
    (more : List Char) : ∃ c, (w ++ more).head? = some c ∧ isWordPart c = true := by
  cases w with
  | nil => exact absurd rfl hne
  | cons c w => exact ⟨c, rfl, List.all_eq_true.1 hw c List.mem_cons_self⟩

/-- A word with no time behind it. -/
theorem isWord_of_plain {w : List Char} {v : Value} {after : List Token}
    (hw : w.all isWordPart = true) (hd : ¬(afterDate? w = some [] ∧ startsTime after = true))
    (hv : Value.ofWord? w = some v) : IsWord w ⟨v, w.map Token.char⟩ := by
  have hne : w ≠ [] := by
    rintro rfl
    rw [ofWord?_nil] at hv
    cases hv
  refine ⟨rfl, alike_of_ofWord? hv, by simpa using exists_head?_append hw hne [],
    fun c hc => Or.inl (List.all_eq_true.1 hw c hc), fun other ho => ?_⟩
  rw [readWord_of_plain (takeWord_append hw ho.word) (by simp [ho.time]), hv]
  rfl

/-- A date, a space and a time. -/
theorem isWord_of_time {w tail : List Char} {c : Char} {v : Value} (hw : w.all isWordPart = true)
    (hd : afterDate? w = some []) (ht : (c :: tail).all isWordPart = true) (hc : c.isDigit = true)
    (hv : Value.ofWord? (w ++ ' ' :: c :: tail) = some v) :
    IsWord (w ++ ' ' :: c :: tail) ⟨v, (w ++ ' ' :: c :: tail).map Token.char⟩ := by
  have hne : w ≠ [] := by
    rintro rfl
    cases hd
  refine ⟨rfl, alike_of_ofWord? hv, exists_head?_append hw hne _, fun d hm => ?_,
    fun other ho => ?_⟩
  · rcases List.mem_append.1 hm with hm | hm
    · exact Or.inl (List.all_eq_true.1 hw d hm)
    · exact (List.mem_cons.1 hm).symm.imp_left (List.all_eq_true.1 ht d)
  · have hstart :
        startsTime (.char ' ' :: ((c :: tail).map Token.char ++ other)) = true := hc
    rw [List.map_append, List.append_assoc, List.map_cons, List.cons_append,
      readWord_of_time (takeWord_append hw rfl) hd hstart (takeWord_append ht ho.word), hv]
    simp

/-- A word that was read is one in front of what is left. -/
theorem isWord_of_readWord {ts rest : List Token} {l : Literal}
    (h : readWord ts = some (l, rest)) : ∃ word, IsWord word l ∧ ts = l.tokens ++ rest := by
  rcases hw : takeWord ts with ⟨w, after⟩
  obtain ⟨rfl, hall, -⟩ := takeWord_eq hw
  by_cases hd : afterDate? w = some [] ∧ startsTime after = true
  · obtain ⟨c, rest', rfl, hc⟩ := startsTime_eq_true hd.2
    rcases ht : takeWord (.char c :: rest') with ⟨time, after⟩
    obtain ⟨htime, htall, -⟩ := takeWord_eq ht
    -- what starts a time is a digit, so the second word is not empty
    obtain ⟨tail, rfl⟩ : ∃ tail, time = c :: tail := by
      rw [takeWord, if_pos (isWordPart_of_isDigit hc)] at ht
      exact ⟨_, (congrArg Prod.fst ht).symm⟩
    rw [htime] at hw ht hd h ⊢
    rw [readWord_of_time hw hd.1 hd.2 ht, Option.map_eq_some_iff] at h
    obtain ⟨v, hv, e⟩ := h
    cases e
    exact ⟨_, isWord_of_time hall hd.1 htall hc hv, by simp⟩
  · rw [readWord_of_plain hw hd, Option.map_eq_some_iff] at h
    obtain ⟨v, hv, e⟩ := h
    cases e
    exact ⟨w, isWord_of_plain hall hd hv, rfl⟩

/-! ### Steady literals -/

/-- Whether a token may be the first one of a value. -/
def Token.startsValue : Token → Bool
  | quoted .. => true
  | char c => isWordPart c || c == '[' || c == '{'
  | comment _ | newline => false

theorem Token.startsValue_ne {t : Token} (h : t.startsValue = true) :
    t.isGap = false ∧ t.isBlank = false ∧ ∀ c, isStop c = true → t ≠ .char c := by
  have hgap : t.isGap = false := by
    rw [Bool.eq_false_iff]
    intro hg
    cases t with
    | quoted => cases hg
    | comment | newline => cases h
    | char c => rcases isBlank_iff.1 hg with e | e <;> cases e <;> exact absurd h (by decide)
  refine ⟨hgap, Bool.eq_false_iff.2 fun hb => ?_, ?_⟩
  · rw [isGap_of_isBlank hb] at hgap
    cases hgap
  · rintro c hc rfl
    rcases isStop_iff.1 hc with rfl | rfl | rfl <;> exact absurd h (by decide)

/-- Whether a literal, wherever it stands, is read as a value like its own. -/
structure Steady (depth : Nat) (l : Literal) : Prop where
  head : ∃ t, l.tokens.head? = some t ∧ t.startsValue = true
  sealed : Sealed l.tokens
  solid : Solid 0 l.tokens
  again : ∀ rest, Ends rest → ∃ l', readValue depth (l.tokens ++ rest) = some (l', rest) ∧
    l.value.Alike l'.value

theorem steady_quoted (depth : Nat) {spelling value : List Char} {multiline : Bool}
    (h : (Token.quoted spelling multiline value).Readable) :
    Steady depth ⟨.string (String.ofList value), [.quoted spelling multiline value]⟩ where
  head := ⟨_, rfl, rfl⟩
  sealed := sealed_quoted h
  solid := solid_of_flat rfl (by simp)
  again rest _ := ⟨_, readValue_quoted depth spelling value multiline rest,
    (alike_scalar (by simp) (by simp)).2 rfl⟩

/-- Where a word part stands a word is read. -/
theorem readValue_word (depth : Nat) {c : Char} (h : isWordPart c = true) (ts : List Token) :
    readValue depth (.char c :: ts) = readWord (.char c :: ts) := by
  unfold readValue
  split
  · next e => cases e
  · next e => cases e; exact absurd h (by decide)
  · next e => cases e; exact absurd h (by decide)
  · rfl

theorem steady_word (depth : Nat) {ts rest : List Token} {l : Literal} (hc : Clear ts)
    (h : readWord ts = some (l, rest)) : Steady depth l ∧ rest <:+ ts := by
  obtain ⟨word, ⟨htokens, hvalue, ⟨c, hhead, hpart⟩, hparts, hagain⟩, rfl⟩ := isWord_of_readWord h
  have hflat : l.tokens.all Token.isFlat = true ∧ Token.newline ∉ l.tokens := by
    rw [htokens, List.all_map, List.all_eq_true]
    refine ⟨fun d hd => ?_, by simp⟩
    simp only [Function.comp_apply, Token.isFlat, Bool.not_eq_true', Bool.or_eq_false_iff,
      beq_eq_false_iff_ne]
    refine ⟨⟨⟨?_, ?_⟩, ?_⟩, ?_⟩ <;> rintro rfl <;> exact absurd (hparts _ hd) (by decide)
  refine ⟨⟨⟨.char c, ?_, ?_⟩, ?_, solid_of_flat hflat.1 fun _ => hflat.2, fun other ho => ?_⟩,
    l.tokens, rfl⟩
  · rw [htokens, List.head?_map, hhead, Option.map_some]
  · simp [Token.startsValue, hpart]
  · refine (loose_chars (fun t ht => ?_)
      fun t ht => hc.readable t (List.mem_append_left _ ht)).sealed
    rw [htokens] at ht
    obtain ⟨d, -, rfl⟩ := List.mem_map.1 ht
    exact ⟨d, rfl⟩
  · refine ⟨l, ?_, hvalue⟩
    have := hagain other ho
    rw [htokens] at this ⊢
    cases word with
    | nil => cases hhead
    | cons d word =>
      cases hhead
      rw [List.map_cons, List.cons_append] at this ⊢
      rw [readValue_word depth hpart, this]

/-! ### Values between gaps -/

/-- Whether tokens are those of a value between gaps. -/
inductive Padded (depth : Nat) (v : Value) : List Token → Prop where
  | intro {before tokens after : List Token} (hb : FreeGap before) (hs : Steady depth ⟨v, tokens⟩)
      (ha : FreeGap after) : Padded depth v (before ++ tokens ++ after)

theorem FreeGap.solid {g : List Token} (h : FreeGap g) : Solid 1 g :=
  solid_of_flat (List.all_eq_true.2 fun t ht =>
    Token.isFlat_of_isGap (List.all_eq_true.1 h.gap t ht)) (by simp)

theorem Padded.solid {depth : Nat} {v : Value} {ts : List Token} (h : Padded depth v ts) :
    Solid 1 ts := by
  obtain ⟨hb, hs, ha⟩ := h
  exact (hb.solid.append (hs.solid.mono (Nat.zero_le 1))).append ha.solid

theorem Padded.clear {depth : Nat} {v : Value} {ts : List Token} (h : Padded depth v ts)
    {c : Char} {rest : List Token} (hc : Clear (.char c :: rest)) :
    Clear (ts ++ .char c :: rest) := by
  obtain ⟨hb, hs, ha⟩ := h
  rw [List.append_assoc, List.append_assoc]
  exact hb.loose _ (hs.sealed _ (calm_append gap_quoted ha.gap (calm_char c rest))
    (ha.loose _ hc))

/-- A value between gaps is read again in front of what ends it. -/
theorem Padded.again {depth : Nat} {v : Value} {ts : List Token} (h : Padded depth v ts)
    {c : Char} (hc : isStop c = true) (rest : List Token) :
    ∃ before t mid after l, takeKind Token.isGap (ts ++ .char c :: rest) = (before, t :: mid) ∧
      (∀ d, isStop d = true → t ≠ .char d) ∧
      readValue depth (t :: mid) = some (l, after ++ .char c :: rest) ∧
      takeKind Token.isGap (after ++ .char c :: rest) = (after, .char c :: rest) ∧
      v.Alike l.value := by
  obtain @⟨before, tokens, after, hb, hs, ha⟩ := h
  obtain ⟨t, ht, hstart⟩ := hs.head
  obtain ⟨hgap, -, hstop⟩ := Token.startsValue_ne hstart
  obtain ⟨tail, rfl : tokens = t :: tail⟩ := List.head?_eq_some_iff.1 ht
  obtain ⟨l, hl, halike⟩ := hs.again (after ++ .char c :: rest)
    (ends_gap ha.gap (Or.inr ⟨c, rest, hc, rfl⟩))
  refine ⟨before, t, tail ++ (after ++ .char c :: rest), after, l, ?_, hstop, hl, ?_, halike⟩
  · rw [List.append_assoc, List.append_assoc]
    exact takeKind_append hb.gap (by rintro u ⟨⟩; exact hgap)
  · exact takeKind_append ha.gap (by rintro u ⟨⟩; exact (not_isWordPart_of_isStop hc).2.2)

/-- Whether what values are read from clear tokens is steady, and the rest is what follows. -/
def Steadies (depth : Nat) : Prop :=
  ∀ {ts rest : List Token} {l : Literal}, Clear ts → readValue depth ts = some (l, rest) →
    Steady depth l ∧ rest <:+ ts

theorem readValue_nil (depth : Nat) : readValue depth [] = none := by
  cases depth <;> rfl

/-- A value that was read between gaps. -/
theorem padded_of_readValue {depth : Nat} (hd : Steadies depth) {ts rest : List Token}
    (hc : Clear ts) {l : Literal} {t : Token} {ts' : List Token}
    (h : readValue depth (ts.dropWhile Token.isGap) = some (l, rest))
    (ht : rest.dropWhile Token.isGap = t :: ts') :
    Padded depth l.value (ts.takeWhile Token.isGap ++ l.tokens ++ rest.takeWhile Token.isGap) ∧
      t :: ts' <:+ ts := by
  obtain ⟨hs, hsuffix⟩ := hd (hc.of_suffix (List.dropWhile_suffix _)) h
  have hsuffix := hsuffix.trans (List.dropWhile_suffix _)
  refine ⟨.intro (hc.freeGap fun e => ?_) hs ((hc.of_suffix hsuffix).freeGap ?_),
    ht ▸ (List.dropWhile_suffix _).trans hsuffix⟩
  · rw [e, readValue_nil] at h
    cases h
  · rw [ht]
    simp

/-! ### Rows -/

/-- Whether tokens are those of some parts with commas between them, and maybe a comma and a gap
behind the last one. -/
inductive Row {α : Type} (Fits : α → List Token → Prop) : List α → List Token → Prop where
  | none {g : List Token} (hg : FreeGap g) : Row Fits [] g
  | last {a : α} {ts : List Token} (ha : Fits a ts) : Row Fits [a] ts
  | more {a : α} {as : List α} {ts rest : List Token} (ha : Fits a ts) (has : Row Fits as rest) :
      Row Fits (a :: as) (ts ++ .char ',' :: rest)

namespace Row

variable {α : Type} {Fits : α → List Token → Prop} {as : List α} {ts : List Token}

theorem solid (h : Row Fits as ts) (hf : ∀ a ts, Fits a ts → Solid 1 ts) : Solid 1 ts := by
  induction h with
  | none hg => exact hg.solid
  | last ha => exact hf _ _ ha
  | more ha _ ih =>
    have hcomma : Solid 1 [.char ','] := solid_of_flat rfl (by simp)
    exact (hf _ _ ha).append (hcomma.append ih)

theorem clear (h : Row Fits as ts)
    (hf : ∀ a ts, Fits a ts → ∀ {c rest}, Clear (.char c :: rest) → Clear (ts ++ .char c :: rest))
    {c : Char} {rest : List Token} (hc : Clear (.char c :: rest)) :
    Clear (ts ++ .char c :: rest) := by
  induction h with
  | none hg => exact hg.loose _ hc
  | last ha => exact hf _ _ ha hc
  | more ha _ ih =>
    rw [List.append_assoc]
    exact hf _ _ ha (loose_char ⟨by decide, by decide, by decide⟩ _ ih)

end Row

/-- A row in brackets may stand anywhere. -/
theorem steady_brackets {depth : Nat} {v : Value} {o c : Char} {ts : List Token}
    (ho : ∀ d, nesting d (.char o) = d + 1) (hc : ∀ d, nesting d (.char c) = d - 1)
    (hstart : (Token.char o).startsValue = true) (hor : (Token.char o).Readable)
    (hcr : (Token.char c).Readable) (hs : Solid 1 ts)
    (hclear : ∀ rest, Clear (.char c :: rest) → Clear (ts ++ .char c :: rest))
    (hagain : ∀ rest, ∃ l, readValue depth (.char o :: (ts ++ .char c :: rest)) = some (l, rest) ∧
      v.Alike l.value) : Steady depth ⟨v, .char o :: ts ++ [.char c]⟩ where
  head := ⟨_, rfl, hstart⟩
  sealed rest _ hrest := by
    have := loose_char hor _ (hclear rest (loose_char hcr rest hrest))
    simpa using this
  solid := hs.brackets ho hc
  again rest _ := by
    obtain ⟨l, hl, halike⟩ := hagain rest
    exact ⟨l, by simpa using hl, halike⟩

/-! ### Arrays -/

/-- The items of an array are read in a row. -/
theorem row_of_readItems {depth fuel : Nat} (hd : Steadies depth) {ts rest tokens : List Token}
    {vs : List Value} (hc : Clear ts)
    (h : readItems (readValue depth) fuel ts = some ((vs, tokens), rest)) :
    (∃ row, tokens = row ++ [.char ']'] ∧ Row (Padded depth) vs row) ∧ rest <:+ ts := by
  induction fuel generalizing ts vs tokens with
  | zero => cases h
  | succ fuel ih =>
    rw [readItems] at h
    simp only [takeKind] at h
    split at h
    · next ts' hdrop =>
      cases h
      have hne : ts.dropWhile Token.isGap ≠ [] := by simp [hdrop]
      exact ⟨⟨_, rfl, .none (hc.freeGap hne)⟩,
        (List.suffix_cons _ _).trans (hdrop ▸ List.dropWhile_suffix _)⟩
    · simp only [Option.bind_eq_bind, Option.bind_eq_some_iff, Prod.exists] at h
      obtain ⟨l, after, hl, h⟩ := h
      split at h
      · next ts' hdrop =>
        obtain ⟨hp, hsuffix⟩ := padded_of_readValue hd hc hl hdrop
        have hsuffix := (List.suffix_cons _ _).trans hsuffix
        obtain ⟨⟨⟨vs', more⟩, rest'⟩, hr, h⟩ := Option.bind_eq_some_iff.1 h
        cases h
        obtain ⟨⟨row, rfl, hrow⟩, hrest⟩ := ih (hc.of_suffix hsuffix) hr
        exact ⟨⟨_, by simp, .more hp hrow⟩, hrest.trans hsuffix⟩
      · next ts' hdrop =>
        obtain ⟨hp, hsuffix⟩ := padded_of_readValue hd hc hl hdrop
        cases h
        exact ⟨⟨_, rfl, .last hp⟩, (List.suffix_cons _ _).trans hsuffix⟩
      · cases h

/-- In front of something else than the closing bracket an item is read. -/
theorem readItems_item {item : Reader Literal} {ts mid : List Token} {before : List Token}
    {t : Token} (h : takeKind Token.isGap ts = (before, t :: mid)) (ht : t ≠ .char ']')
    (fuel : Nat) : readItems item (fuel + 1) ts = (item (t :: mid)).bind fun p =>
      match takeKind Token.isGap p.2 with
      | (after, .char ',' :: ts) => (readItems item fuel ts).map fun q =>
          ((p.1.value :: q.1.1, before ++ p.1.tokens ++ after ++ .char ',' :: q.1.2), q.2)
      | (after, .char ']' :: ts) =>
          some (([p.1.value], before ++ p.1.tokens ++ after ++ [.char ']']), ts)
      | _ => none := by
  rw [readItems, h]
  simp only
  split
  · next e => cases e; exact absurd rfl ht
  · rw [Option.bind_eq_bind]
    congr 1
    funext ⟨l, rest⟩
    rcases takeKind Token.isGap rest with ⟨after, ts⟩
    simp only
    split
    · exact (Option.map_eq_bind ..).symm
    · rfl
    · split <;> simp_all

/-- A row of items is read again. -/
theorem Row.readItems_again {depth : Nat} {vs : List Value} {ts : List Token}
    (h : Row (Padded depth) vs ts) {fuel : Nat} (hf : ts.length < fuel) (rest : List Token) :
    ∃ vs' tokens, readItems (readValue depth) fuel (ts ++ .char ']' :: rest)
      = some ((vs', tokens), rest) ∧ List.Forall₂ Value.Alike vs vs' := by
  induction h generalizing fuel with
  | @none g hg =>
    obtain ⟨fuel, rfl⟩ := Nat.exists_eq_succ_of_ne_zero (by omega : fuel ≠ 0)
    have hgap : takeKind Token.isGap (g ++ .char ']' :: rest) = (g, .char ']' :: rest) :=
      takeKind_append hg.gap (by rintro t ⟨⟩; rfl)
    refine ⟨[], g ++ [.char ']'], ?_, .nil⟩
    rw [readItems, hgap]
    rfl
  | @last v ts hv =>
    obtain ⟨fuel, rfl⟩ := Nat.exists_eq_succ_of_ne_zero (by omega : fuel ≠ 0)
    obtain ⟨before, t, mid, after, l, hb, hstop, hl, ha, halike⟩ := hv.again (c := ']') rfl rest
    refine ⟨[l.value], before ++ l.tokens ++ after ++ [.char ']'], ?_, .cons halike .nil⟩
    rw [readItems_item hb (hstop _ rfl), hl, Option.bind_some]
    simp only [ha]
  | @more v vs ts more hv _ ih =>
    obtain ⟨fuel, rfl⟩ := Nat.exists_eq_succ_of_ne_zero (by omega : fuel ≠ 0)
    have hfuel : more.length < fuel := by
      rw [List.length_append, List.length_cons] at hf
      omega
    obtain ⟨vs', tokens, hr, hvs⟩ := ih hfuel
    obtain ⟨before, t, mid, after, l, hb, hstop, hl, ha, halike⟩ :=
      hv.again (c := ',') rfl (more ++ .char ']' :: rest)
    refine ⟨l.value :: vs', before ++ l.tokens ++ after ++ .char ',' :: tokens, ?_,
      .cons halike hvs⟩
    rw [List.append_assoc, List.cons_append, readItems_item hb (hstop _ rfl), hl,
      Option.bind_some]
    simp only [ha, hr, Option.map_some]

/-! ### Inline tables -/

/-- What is asked of a tree in braces: that each value stands between gaps, and each path too. -/
def inlineMarks (depth : Nat) : Marks where
  leaf key v right := key.Fringed Token.isGap Token.isGap ∧ Padded depth v right
  head _ := True
  heading _ := True

/-- Whether an assignment may stand in braces. -/
structure Inline (depth : Nat) (e : List Key × Literal) : Prop where
  short : e.1.length ≤ maxParts
  path : PathSound e.1 ((inlineMarks depth).leaf · e.2.value e.2.tokens)

/-- Whether tokens are those of an assignment that may stand in braces. -/
def InlineTokens (depth : Nat) (e : List Key × Literal) (ts : List Token) : Prop :=
  ts = assignmentTokens e ∧ Inline depth e

theorem Inline.solid {depth : Nat} {e : List Key × Literal} (h : Inline depth e) :
    Solid 1 (assignmentTokens e) := by
  obtain ⟨last, hlast, hf, hp⟩ := h.path.last
  have hequals : Solid 1 [.char '='] := solid_of_flat rfl (by simp)
  exact (solid_of_flat (flat_pathTokens h.path.legible hlast hf) (by simp)).append
    (hequals.append hp.solid)

theorem Inline.clear {depth : Nat} {e : List Key × Literal} (h : Inline depth e) {c : Char}
    {rest : List Token} (hc : Clear (.char c :: rest)) :
    Clear (assignmentTokens e ++ .char c :: rest) := by
  obtain ⟨last, hlast, hf, hp⟩ := h.path.last
  rw [assignmentTokens, List.append_assoc, List.cons_append]
  exact clear_pathTokens h.path.legible hlast hf gap_quoted
    (loose_char ⟨by decide, by decide, by decide⟩ _ (hp.clear hc))

/-- An assignment that starts with something else than the closing brace is read. -/
theorem readMembers_member {item : Reader Literal} {ts mid lead label right : List Token}
    {t : Token} (h : takeKind Token.isGap ts = (lead, t :: mid)) (ht : t ≠ .char '}')
    (hs : Text.splitFirst? (.char '=') ts = some (label, right)) {path : List Key}
    (hp : readPath Token.isGap label = some path) (fuel : Nat) :
    readMembers item (fuel + 1) ts = (item (takeKind Token.isGap right).2).bind fun p =>
      match takeKind Token.isGap p.2 with
      | (after, .char ',' :: ts) => (readMembers item fuel ts).map fun q =>
          (((path, ⟨p.1.value, (takeKind Token.isGap right).1 ++ p.1.tokens ++ after⟩) :: q.1.1,
            if q.1.1.isEmpty then .char ',' :: q.1.2 else q.1.2), q.2)
      | (after, .char '}' :: ts) =>
          some (([(path, ⟨p.1.value, (takeKind Token.isGap right).1 ++ p.1.tokens ++ after⟩)], []),
            ts)
      | _ => none := by
  rw [readMembers, h]
  simp only
  split
  · next e => cases e; exact absurd rfl ht
  · simp only [hs, hp, Option.bind_eq_bind, Option.bind_some]
    congr 1
    funext ⟨l, rest⟩
    rcases takeKind Token.isGap rest with ⟨after, ts⟩
    simp only
    split
    · exact (Option.map_eq_bind ..).symm
    · rfl
    · split <;> simp_all

/-- The path of an assignment in braces is read again. -/
theorem Inline.again {depth : Nat} {e : List Key × Literal} (h : Inline depth e)
    (rest : List Token) : ∃ lead t mid path,
      takeKind Token.isGap (assignmentTokens e ++ rest) = (lead, t :: mid) ∧ t ≠ .char '}' ∧
      Text.splitFirst? (.char '=') (assignmentTokens e ++ rest)
        = some (pathTokens e.1, e.2.tokens ++ rest) ∧
      readPath Token.isGap (pathTokens e.1) = some path ∧
      path.map Key.name = e.1.map Key.name := by
  obtain ⟨last, hlast, hf, -⟩ := h.path.last
  obtain ⟨path, hpath, hnames⟩ := readPath_pathTokens (fun _ => Token.isGap_of_isLabel) h.short
    h.path.legible hlast hf
  have hequals : .char '=' ∉ pathTokens e.1 := fun hm => by
    rcases mem_pathTokens h.path.legible hlast hf hm with h | h | h <;> exact absurd h (by decide)
  have hsplit : assignmentTokens e ++ rest
      = pathTokens e.1 ++ .char '=' :: (e.2.tokens ++ rest) := by simp [assignmentTokens]
  rw [hsplit, Text.splitFirst?_eq_some_iff.2 ⟨rfl, hequals⟩, pathTokens_of_getLast? hlast]
  obtain ⟨k, ks, hks⟩ : ∃ k ks, e.1 = k :: ks := by
    cases he : e.1 with
    | nil => rw [he] at hlast; cases hlast
    | cons k ks => exact ⟨k, ks, rfl⟩
  have hk : k.Legible := h.path.legible k (by simp [hks])
  obtain ⟨t, mid, hmid⟩ := List.exists_cons_of_ne_nil (dotted_ne_nil hk ks)
  have ht : t.isLabel = true := head?_dotted hk ks (by rw [hmid]; rfl)
  refine ⟨last.lead, t, mid ++ last.gap ++ .char '=' :: (e.2.tokens ++ rest), path, ?_, ?_, rfl,
    by rw [← pathTokens_of_getLast? hlast, hpath], hnames⟩
  · rw [hks, hmid, List.append_assoc, List.append_assoc]
    rw [takeKind_append hf.lead (by rintro u ⟨⟩; exact Token.isGap_of_isLabel ht)]
    simp
  · rintro rfl
    exact absurd ht (by decide)

/-- A row of assignments in braces is read again. -/
theorem Row.readMembers_again {depth : Nat} {es : List (List Key × Literal)} {ts : List Token}
    (h : Row (InlineTokens depth) es ts) {fuel : Nat} (hf : ts.length < fuel)
    (rest : List Token) : ∃ es' last, readMembers (readValue depth) fuel (ts ++ .char '}' :: rest)
      = some ((es', last), rest) ∧ List.Forall₂ Echoes es es' := by
  induction h generalizing fuel with
  | @none g hg =>
    obtain ⟨fuel, rfl⟩ := Nat.exists_eq_succ_of_ne_zero (by omega : fuel ≠ 0)
    have hgap : takeKind Token.isGap (g ++ .char '}' :: rest) = (g, .char '}' :: rest) :=
      takeKind_append hg.gap (by rintro t ⟨⟩; rfl)
    refine ⟨[], g, ?_, .nil⟩
    rw [readMembers, hgap]
    rfl
  | @last e ts he =>
    obtain ⟨rfl, he⟩ := he
    obtain ⟨fuel, rfl⟩ := Nat.exists_eq_succ_of_ne_zero (by omega : fuel ≠ 0)
    obtain ⟨-, -, -, hp⟩ := he.path.last
    obtain ⟨lead, t, mid, path, hlead, ht, hsplit, hpath, hnames⟩ := he.again (.char '}' :: rest)
    obtain ⟨before, u, mid', after, l, hb, -, hl, ha, halike⟩ := hp.again (c := '}') rfl rest
    refine ⟨[(path, ⟨l.value, before ++ l.tokens ++ after⟩)], [], ?_, .cons ⟨hnames, halike⟩ .nil⟩
    rw [readMembers_member hlead ht hsplit hpath, hb, hl, Option.bind_some]
    simp only [ha]
  | @more e es ts more he _ ih =>
    obtain ⟨rfl, he⟩ := he
    obtain ⟨fuel, rfl⟩ := Nat.exists_eq_succ_of_ne_zero (by omega : fuel ≠ 0)
    have hfuel : more.length < fuel := by
      rw [List.length_append, List.length_cons] at hf
      omega
    obtain ⟨es', last, hr, hes⟩ := ih hfuel
    obtain ⟨-, -, -, hp⟩ := he.path.last
    obtain ⟨lead, t, mid, path, hlead, ht, hsplit, hpath, hnames⟩ :=
      he.again (.char ',' :: (more ++ .char '}' :: rest))
    obtain ⟨before, u, mid', after, l, hb, -, hl, ha, halike⟩ :=
      hp.again (c := ',') rfl (more ++ .char '}' :: rest)
    refine ⟨(path, ⟨l.value, before ++ l.tokens ++ after⟩) :: es',
      if es'.isEmpty then .char ',' :: last else last, ?_, .cons ⟨hnames, halike⟩ hes⟩
    rw [List.append_assoc, List.cons_append, readMembers_member hlead ht hsplit hpath, hb, hl,
      Option.bind_some]
    simp only [ha, hr, Option.map_some]

/-- What is written behind the last assignment in braces: nothing, or a comma and a gap; in empty
braces a gap only. -/
def Trailing (empty : Bool) (last : List Token) : Prop :=
  if empty then FreeGap last else last = [] ∨ ∃ g, last = .char ',' :: g ∧ FreeGap g

/-- What stands before a value in braces makes, with the value, an assignment that may be written
there. -/
theorem PathIn.inline {depth : Nat} {label right : List Token} {path : List Key} {v : Value}
    (h : PathIn Token.isGap label path) {ts : List Token} (hc : Clear (label ++ .char '=' :: ts))
    (hp : Padded depth v right) : Inline depth (path, ⟨v, right⟩) := by
  obtain ⟨k, hk, hf⟩ := h.fringed (fun _ h => h) hc (by simp)
  exact ⟨h.length_le, h.legible fun t ht => hc.readable t (List.mem_append_left _ ht), k, hk, hf,
    hp⟩

/-- The assignments in braces are read with what they need to be written again. -/
theorem inline_of_readMembers {depth fuel : Nat} (hd : Steadies depth) {ts rest last : List Token}
    {es : List (List Key × Literal)} (hc : Clear ts)
    (h : readMembers (readValue depth) fuel ts = some ((es, last), rest)) :
    (∀ e ∈ es, Inline depth e) ∧ Trailing es.isEmpty last ∧ rest <:+ ts := by
  induction fuel generalizing ts es last with
  | zero => cases h
  | succ fuel ih =>
    rw [readMembers] at h
    simp only [takeKind] at h
    split at h
    · next before ts' hspan =>
      obtain ⟨rfl, hdrop⟩ := Prod.mk.inj hspan
      cases h
      have hne : ts.dropWhile Token.isGap ≠ [] := by simp [hdrop]
      exact ⟨by simp, hc.freeGap hne,
        (List.suffix_cons _ _).trans (hdrop ▸ List.dropWhile_suffix _)⟩
    · simp only [Option.bind_eq_bind, Option.bind_eq_some_iff, Prod.exists] at h
      obtain ⟨label, right, hsplit, path, hpath, l, after, hl, h⟩ := h
      obtain ⟨rfl, -⟩ := Text.splitFirst?_eq_some_iff.1 hsplit
      have hright : right <:+ label ++ .char '=' :: right :=
        (List.suffix_cons _ _).trans (List.suffix_append _ _)
      have hin := pathIn_of_readPath hpath
      split at h
      · -- a comma, and the assignments behind it
        next ts' hdrop =>
        obtain ⟨hp, hsuffix⟩ := padded_of_readValue hd (hc.of_suffix hright) hl hdrop
        have hsuffix := ((List.suffix_cons _ _).trans hsuffix).trans hright
        obtain ⟨⟨⟨es', last'⟩, rest'⟩, hr, h⟩ := Option.bind_eq_some_iff.1 h
        cases h
        obtain ⟨hes, hlast, hrest⟩ := ih (hc.of_suffix hsuffix) hr
        refine ⟨List.forall_mem_cons.2 ⟨hin.inline hc hp, hes⟩, ?_, hrest.trans hsuffix⟩
        cases es' with
        | nil => exact Or.inr ⟨last', rfl, hlast⟩
        | cons => exact hlast
      · -- the closing brace
        next ts' hdrop =>
        obtain ⟨hp, hsuffix⟩ := padded_of_readValue hd (hc.of_suffix hright) hl hdrop
        cases h
        exact ⟨by simpa using hin.inline hc hp, Or.inl rfl,
          ((List.suffix_cons _ _).trans hsuffix).trans hright⟩
      · cases h

/-- Assignments that may stand in braces make a sound tree without headers. -/
theorem sound_of_defineAll {depth : Nat} {es : List (List Key × Literal)}
    (hes : ∀ e ∈ es, Inline depth e) {ms ms' : Members}
    (h : MembersSound (inlineMarks depth) .root ms) (hp : placesOf ms = [])
    (hd : defineAll es ms = some ms') :
    MembersSound (inlineMarks depth) .root ms' ∧ placesOf ms' = [] ∧
      (ms ≠ [] ∨ es ≠ [] ↔ ms' ≠ []) := by
  induction es generalizing ms with
  | nil =>
    cases hd
    exact ⟨h, hp, by simp⟩
  | cons e es ih =>
    rw [List.forall_mem_cons] at hes
    obtain ⟨middle, he, hd⟩ := Option.bind_eq_some_iff.1 hd
    have hg := h.define hes.1.path rfl (by simpa [Site.root] using hes.1.short) he
    have hplaces : placesOf middle = [] := by simpa [hp] using hg.places
    obtain ⟨hs, hp', hne⟩ := ih hes.2 hg.sound hplaces hd
    exact ⟨hs, hp', by simpa [hg.ne_nil] using hne⟩

/-- Assignments in braces that are written one after the other are a row. -/
theorem row_joinWith {depth : Nat} {es : List (List Key × Literal)}
    (hes : ∀ e ∈ es, Inline depth e) {last : List Token} (hl : Trailing es.isEmpty last) :
    Row (InlineTokens depth) es
      (Text.joinWith [.char ','] (es.map assignmentTokens) ++ last) := by
  induction es with
  | nil => exact .none hl
  | cons e es ih =>
    rw [List.forall_mem_cons] at hes
    have hfits : InlineTokens depth e (assignmentTokens e) := ⟨rfl, hes.1⟩
    cases es with
    | nil =>
      rcases hl with rfl | ⟨g, rfl, hg⟩
      · simpa [Text.joinWith] using Row.last hfits
      · exact .more hfits (.none hg)
    | cons e' es => simpa [Text.joinWith] using Row.more hfits (ih hes.2 hl)

/-- A tree in braces is read again. -/
theorem steady_braces {depth : Nat} {ms : Members} {row : List Token}
    (hs : MembersSound (inlineMarks depth) .root ms) (hp : placesOf ms = [])
    (h : Row (InlineTokens depth) (leavesOf [] ms) row) :
    Steady (depth + 1) ⟨.table (valuesOf ms), .char '{' :: row ++ [.char '}']⟩ := by
  refine steady_brackets (fun _ => rfl) (fun _ => rfl) rfl ⟨by decide, by decide, by decide⟩
    ⟨by decide, by decide, by decide⟩ (h.solid fun _ _ he => he.1 ▸ he.2.solid)
    (fun rest hc => h.clear (fun _ _ he _ _ hc => by rw [he.1]; exact he.2.clear hc) hc)
    fun rest => ?_
  have hfuel : row.length < (row ++ .char '}' :: rest).length + 1 := by
    rw [List.length_append]
    omega
  obtain ⟨es, last, hr, hes⟩ := h.readMembers_again hfuel rest
  obtain ⟨again, hdef, hgrown⟩ := hs.fill hes (regrown_nil (k := 0) (by simp [hp]))
  have htable : ∃ l, inlineTable es last = some l ∧ l.value = .table (valuesOf again) :=
    ⟨_, Option.bind_eq_some_iff.2 ⟨again, hdef, rfl⟩, rfl⟩
  obtain ⟨l, hl, hv⟩ := htable
  refine ⟨l, ?_, hv ▸ alike_table.2 ⟨_, rfl, hs.alike_of_regrown (by simp [hp]) hgrown⟩⟩
  rw [readValue, hr, Option.bind_eq_bind, Option.bind_some]
  exact Option.bind_eq_some_iff.2 ⟨l, hl, rfl⟩

/-- An inline table is read again as it is written, in the order of its tree. -/
theorem steady_inlineTable {depth : Nat} {es : List (List Key × Literal)}
    (hes : ∀ e ∈ es, Inline depth e) {last : List Token} (hlast : Trailing es.isEmpty last)
    {l : Literal} (h : inlineTable es last = some l) : Steady (depth + 1) l := by
  obtain ⟨ms, hd, e⟩ := Option.bind_eq_some_iff.1 h
  cases e
  obtain ⟨hs, hp, hne⟩ := sound_of_defineAll hes MembersSound.nil rfl hd
  have hinline : ∀ e ∈ leavesOf [] ms, Inline depth e := fun e he => by
    obtain ⟨hpath, hlen⟩ := hs.leaf he
    exact ⟨by simpa [Site.root] using hlen, hpath⟩
  have hempty : (leavesOf [] ms).isEmpty = es.isEmpty := by
    by_cases he : es = []
    · subst he
      cases hd
      rfl
    · have hl := hs.leavesOf_ne_nil hp (hne.1 (Or.inr he)) []
      rw [List.isEmpty_eq_false_iff.2 hl, List.isEmpty_eq_false_iff.2 he]
  rw [← hempty] at hlast
  have hrow := row_joinWith hinline hlast
  rw [← entriesOf_eq] at hrow
  exact steady_braces hs hp hrow

/-! ### Values -/

theorem steady_array {depth : Nat} {vs : List Value} {row : List Token}
    (h : Row (Padded depth) vs row) :
    Steady (depth + 1) ⟨.array vs, .char '[' :: row ++ [.char ']']⟩ := by
  refine steady_brackets (fun _ => rfl) (fun _ => rfl) rfl ⟨by decide, by decide, by decide⟩
    ⟨by decide, by decide, by decide⟩ (h.solid fun _ _ hv => hv.solid)
    (fun rest hc => h.clear (fun _ _ hv _ _ hc => hv.clear hc) hc) fun rest => ?_
  have hfuel : row.length < (row ++ .char ']' :: rest).length + 1 := by
    rw [List.length_append]
    omega
  obtain ⟨vs', tokens, hr, hvs⟩ := h.readItems_again hfuel rest
  refine ⟨⟨.array vs', .char '[' :: tokens⟩, ?_, alike_array.2 ⟨vs', rfl, hvs⟩⟩
  rw [readValue, hr]
  rfl

/-- What reading gives is steady. -/
theorem steady_of_readValue (depth : Nat) : Steadies depth := by
  induction depth using Nat.strongRecOn with
  | ind depth ih =>
    intro ts rest l hc h
    unfold readValue at h
    split at h
    · cases h
      exact ⟨steady_quoted _ hc.1, List.suffix_cons _ _⟩
    · next depth ts' =>
      obtain ⟨⟨⟨vs, tokens⟩, rest'⟩, hr, h⟩ := Option.bind_eq_some_iff.1 h
      cases h
      obtain ⟨⟨row, rfl, hrow⟩, hrest⟩ := row_of_readItems (ih depth depth.lt_succ_self) hc.2.2 hr
      exact ⟨steady_array hrow, hrest.trans (List.suffix_cons _ _)⟩
    · next depth ts' =>
      obtain ⟨⟨⟨es, last⟩, rest'⟩, hr, h⟩ := Option.bind_eq_some_iff.1 h
      obtain ⟨l, hl, h⟩ := Option.bind_eq_some_iff.1 h
      cases h
      obtain ⟨hes, hlast, hrest⟩ :=
        inline_of_readMembers (ih depth depth.lt_succ_self) hc.2.2 hr
      exact ⟨steady_inlineTable hes hlast hl, hrest.trans (List.suffix_cons _ _)⟩
    · exact steady_word _ hc h

end LintHost.Toml
