/-
LintHost/Proofs/Toml/Tokens.lean

Telling tokens apart again.  A row of tokens is clear if each of them can be read and
ends where the next one begins: a comment before a line end, and a string whose closing
quotes could grow before anything but its quote.  What reading gives is clear
(`clear_of_tokens`), and a clear row is read as it is written (`tokens_written`).
-/
import LintHost.Toml.Token

namespace LintHost.Toml

/-! ### Strings -/

/-- The quotes of which strings are made. -/
def isQuote (c : Char) : Bool :=
  c == '"' || c == '\''

/-- A string's spelling does not go on in the given text.  A single quote more would be part of
a string that spans lines, and would make an empty string the start of one. -/
def EndsBefore (spelling : List Char) (multiline : Bool) (rest : List Char) : Prop :=
  multiline = true ∨ spelling.length = 2 → rest.head? ≠ spelling.head?

theorem untilQuote_append {quote : Char} {escapes escaped : Bool} {s content rest : List Char}
    (h : untilQuote quote escapes escaped s = some (content, rest)) :
    s = content ++ quote :: rest ∧
      ∀ other, untilQuote quote escapes escaped (content ++ quote :: other)
        = some (content, other) := by
  fun_induction untilQuote quote escapes escaped s generalizing content with
  | case1 => simp at h
  | case2 c s ih =>
    obtain ⟨⟨inner, _⟩, hr, hp⟩ := Option.map_eq_some_iff.1 h
    cases hp
    obtain ⟨rfl, hother⟩ := ih hr
    exact ⟨rfl, fun other => by simp [untilQuote, hother, consContent]⟩
  | case3 s =>
    cases h
    exact ⟨rfl, fun other => by simp [untilQuote]⟩
  | case4 c s hc ih =>
    obtain ⟨⟨inner, _⟩, hr, hp⟩ := Option.map_eq_some_iff.1 h
    cases hp
    obtain ⟨rfl, hother⟩ := ih hr
    exact ⟨rfl, fun other => by simp [untilQuote, hc, hother, consContent]⟩

/-- A run of quotes that ends within a text is the same before any other text. -/
theorem takeWhile_append_of_short {p : Char → Bool} {a b : List Char} {n : Nat}
    (hb : n ≤ (b.takeWhile p).length) (h : ((a ++ b).takeWhile p).length < n) (c : List Char) :
    (a ++ c).takeWhile p = (a ++ b).takeWhile p := by
  induction a with
  | nil =>
    simp only [List.nil_append] at h
    omega
  | cons x a ih =>
    simp only [List.cons_append, List.takeWhile_cons] at h ⊢
    split
    · next hx =>
      rw [if_pos hx, List.length_cons] at h
      rw [ih (by omega)]
    · rfl

theorem length_takeWhile_replicate (q : Char) (n : Nat) (s : List Char) :
    n ≤ ((List.replicate n q ++ s).takeWhile (· == q)).length := by
  induction n with
  | zero => simp
  | succ n ih => simp [List.replicate_succ]

/-- A row of one kind before something else is what is taken of that kind. -/
theorem span_append {α : Type} {p : α → Bool} {a b : List α} (ha : a.all p = true)
    (hb : ∀ x, b.head? = some x → p x = false) :
    (a ++ b).takeWhile p = a ∧ (a ++ b).dropWhile p = b := by
  have ha' : ∀ x ∈ a, p x = true := fun x hx => List.all_eq_true.1 ha x hx
  have hb' : b.takeWhile p = [] ∧ b.dropWhile p = b := by
    cases b with
    | nil => simp
    | cons x b => simp [hb x rfl]
  rw [List.takeWhile_append_of_pos ha', List.dropWhile_append_of_pos ha', hb'.1, hb'.2,
    List.append_nil]
  exact ⟨rfl, rfl⟩

/-- A run of quotes is all of its quotes. -/
theorem takeWhile_eq_replicate (q : Char) (s : List Char) :
    s.takeWhile (· == q) = List.replicate (s.takeWhile (· == q)).length q :=
  List.eq_replicate_of_mem fun c hc => by
    simpa using List.all_eq_true.1 (List.all_takeWhile (l := s) (p := (· == q))) c hc

theorem head?_dropWhile_ne (q : Char) (s : List Char) :
    (s.dropWhile (· == q)).head? ≠ some q := by
  intro h
  have := List.head?_dropWhile_not (· == q) s
  rw [h] at this
  simp at this

/-- A run of quotes is its surplus in front of the three that close. -/
theorem drop_append_replicate {q : Char} {s : List Char}
    (h : 3 ≤ (s.takeWhile (· == q)).length) :
    (s.takeWhile (· == q)).drop 3 ++ List.replicate 3 q = s.takeWhile (· == q) := by
  rw [takeWhile_eq_replicate q s, List.drop_replicate, List.replicate_append_replicate]
  congr 1
  omega

/-- A run of three to five quotes closes the string, before any text that does not begin with one
more quote. -/
theorem untilThreeQuotes_run {quote : Char} {run other : List Char} (escapes : Bool)
    (hq : run.all (· == quote) = true) (hleast : 3 ≤ run.length) (hmost : ¬ 5 < run.length)
    (ho : other.head? ≠ some quote) :
    untilThreeQuotes quote escapes false (run ++ other) = some (run.drop 3, other) := by
  obtain ⟨htake, hdrop⟩ := span_append hq (b := other) fun c hc => by
    rw [beq_eq_false_iff_ne]
    rintro rfl
    exact ho hc
  cases run with
  | nil => simp at hleast
  | cons d run =>
    rw [List.cons_append] at htake hdrop
    rw [List.cons_append, untilThreeQuotes]
    simp only [htake, hdrop, if_neg hmost, if_pos hleast]

theorem untilThreeQuotes_append {quote : Char} {escapes escaped : Bool}
    {s content rest : List Char}
    (h : untilThreeQuotes quote escapes escaped s = some (content, rest)) :
    s = content ++ List.replicate 3 quote ++ rest ∧ rest.head? ≠ some quote ∧
      ∀ other, other.head? ≠ some quote →
        untilThreeQuotes quote escapes escaped (content ++ List.replicate 3 quote ++ other)
          = some (content, other) := by
  fun_induction untilThreeQuotes quote escapes escaped s generalizing content with
  | case1 => simp at h
  | case2 c s ih =>
    obtain ⟨⟨inner, _⟩, hr, hp⟩ := Option.map_eq_some_iff.1 h
    cases hp
    obtain ⟨rfl, hrest, hother⟩ := ih hr
    refine ⟨rfl, hrest, fun other ho => ?_⟩
    rw [List.cons_append, List.cons_append, untilThreeQuotes, hother other ho]
    rfl
  | case3 => simp at h
  | case4 c s run hmost =>
    rename_i hleast
    cases h
    simp only [run] at hmost hleast ⊢
    refine ⟨?_, head?_dropWhile_ne quote (c :: s), fun other ho => ?_⟩
    · rw [drop_append_replicate hleast, List.takeWhile_append_dropWhile]
    · rw [drop_append_replicate hleast]
      exact untilThreeQuotes_run escapes List.all_takeWhile hleast hmost ho
  | case5 c s run hmost hleast =>
    rename_i ih
    simp only [run] at hmost hleast
    clear run
    obtain ⟨⟨inner, tail⟩, hr, hp⟩ := Option.map_eq_some_iff.1 h
    cases hp
    obtain ⟨rfl, hrest, hother⟩ := ih hr
    refine ⟨rfl, hrest, fun other ho => ?_⟩
    have hsame := takeWhile_append_of_short (p := (· == quote)) (a := c :: inner) (n := 3)
      (length_takeWhile_replicate quote 3 tail)
      (by simpa only [List.cons_append, List.append_assoc] using Nat.lt_of_not_le hleast)
      (List.replicate 3 quote ++ other)
    simp only [List.cons_append, List.append_assoc] at hsame hother hmost hleast ⊢
    rw [untilThreeQuotes]
    simp only [hsame, if_neg hmost, if_neg hleast, hother other ho]
    rfl

theorem quotedToken_eq_some {quote : Char} {multiline : Bool} {content : List Char} {t : Token}
    (h : quotedToken quote multiline content = some t) :
    ∃ value, t = .quoted (List.replicate (if multiline then 3 else 1) quote ++ content
      ++ List.replicate (if multiline then 3 else 1) quote) multiline value := by
  unfold quotedToken at h
  by_cases hc : isContent multiline content = true
  · by_cases hq : quote = '"'
    · simp only [hc, hq, Bool.not_true, Bool.false_eq_true, if_false, if_true,
        Option.bind_eq_bind, Option.bind_eq_some_iff, Option.pure_def, Option.some.injEq] at h
      obtain ⟨value, -, rfl⟩ := h
      exact ⟨value, by rw [hq]⟩
    · simp only [hc, hq, Bool.not_true, Bool.false_eq_true, if_false,
        Option.bind_eq_bind, Option.bind_some, Option.pure_def, Option.some.injEq] at h
      exact ⟨_, h.symm⟩
  · simp [hc] at h

/-- Two quotes after the opening one open a string that spans lines. -/
theorem readQuoted_pair (quote : Char) (s : List Char) :
    readQuoted quote (quote :: quote :: s)
      = (untilThreeQuotes quote (quote == '"') false s).bind fun p =>
          (quotedToken quote true p.1).map (·, p.2) := by
  simp only [readQuoted, and_self, if_true, Option.map_eq_bind]
  rfl

theorem readQuoted_of_not_pair {quote : Char} {s : List Char}
    (h : ∀ rest, s ≠ quote :: quote :: rest) :
    readQuoted quote s
      = (untilQuote quote (quote == '"') false s).bind fun p =>
          (quotedToken quote false p.1).map (·, p.2) := by
  simp only [Option.map_eq_bind]
  unfold readQuoted
  split
  · next a b rest =>
    rw [if_neg (by rintro ⟨rfl, rfl⟩; exact h rest rfl)]
    rfl
  · rfl

theorem head?_untilQuote {quote : Char} {escapes : Bool} {s content rest : List Char}
    (h : untilQuote quote escapes false s = some (content, rest)) :
    content.head? ≠ some quote := by
  cases s with
  | nil => simp [untilQuote] at h
  | cons c s =>
    simp only [untilQuote] at h
    split at h
    · cases h
      simp
    · next hc =>
      obtain ⟨_, -, hp⟩ := Option.map_eq_some_iff.1 h
      cases hp
      simpa using hc

/-- A string on one line ends before a text if its quotes and that text do not make up the pair
that opens a string over several lines. -/
theorem endsBefore_iff {quote : Char} {content : List Char} (h : content.head? ≠ some quote)
    (other : List Char) : EndsBefore (quote :: (content ++ [quote])) false other ↔
      ∀ rest, content ++ quote :: other ≠ quote :: quote :: rest := by
  cases content with
  | nil => cases other <;> simp [EndsBefore]
  | cons c content =>
    have hc : c ≠ quote := by simpa using h
    simp [EndsBefore, hc]

/-- A string that was read ends where it did before any text that its spelling does not go on
in. -/
theorem readQuoted_append {quote : Char} {s rest : List Char} {t : Token}
    (h : readQuoted quote s = some (t, rest)) :
    ∃ body multiline value, t = .quoted (quote :: body) multiline value ∧ s = body ++ rest ∧
      EndsBefore (quote :: body) multiline rest ∧
      ∀ other, EndsBefore (quote :: body) multiline other →
        readQuoted quote (body ++ other) = some (t, other) := by
  by_cases hs : ∃ s', s = quote :: quote :: s'
  · obtain ⟨s, rfl⟩ := hs
    rw [readQuoted_pair] at h
    simp only [Option.bind_eq_some_iff, Option.map_eq_some_iff, Prod.exists, Prod.mk.injEq] at h
    obtain ⟨content, _, hu, _, ht, rfl, rfl⟩ := h
    obtain ⟨value, rfl⟩ := quotedToken_eq_some ht
    obtain ⟨rfl, hrest, hother⟩ := untilThreeQuotes_append hu
    refine ⟨_, true, value, rfl, by simp [List.replicate_succ], fun _ => hrest, fun other ho => ?_⟩
    have ho' : other.head? ≠ some quote := ho (Or.inl rfl)
    have hbody : ∀ tail : List Char, quote :: quote :: (content ++ List.replicate 3 quote) ++ tail
        = quote :: quote :: (content ++ List.replicate 3 quote ++ tail) := fun _ => by simp
    change readQuoted quote (quote :: quote :: (content ++ List.replicate 3 quote) ++ other) = _
    rw [hbody, readQuoted_pair, hother other ho', Option.bind_some, ht]
    rfl
  · have hs' : ∀ rest, s ≠ quote :: quote :: rest := fun s' e => hs ⟨s', e⟩
    rw [readQuoted_of_not_pair hs'] at h
    simp only [Option.bind_eq_some_iff, Option.map_eq_some_iff, Prod.exists, Prod.mk.injEq] at h
    obtain ⟨content, _, hu, _, ht, rfl, rfl⟩ := h
    obtain ⟨value, rfl⟩ := quotedToken_eq_some ht
    have hhead := head?_untilQuote hu
    obtain ⟨rfl, hother⟩ := untilQuote_append hu
    refine ⟨content ++ [quote], false, value, by simp, by simp,
      (endsBefore_iff hhead _).2 hs', fun other ho => ?_⟩
    rw [List.append_assoc, List.singleton_append,
      readQuoted_of_not_pair ((endsBefore_iff hhead other).1 ho), hother other]
    simp only [Bool.false_eq_true, if_false] at ht
    simp [ht]

/-! ### Clear rows -/

/-- A token that reading can give. -/
def Token.Readable : Token → Prop
  | quoted spelling multiline value =>
    ∃ quote body, isQuote quote = true ∧ spelling = quote :: body ∧
      ∀ rest, EndsBefore spelling multiline rest →
        readQuoted quote (body ++ rest) = some (quoted spelling multiline value, rest)
  | comment text => ∃ s, text = '#' :: s ∧ s.all isPlain = true
  | newline => True
  | char c => isPlain c = true ∧ c ≠ '#' ∧ isQuote c = false

/-- Whether a token ends where the next one begins. -/
def Token.EndsAt : Token → List Token → Prop
  | quoted spelling multiline _, ts => EndsBefore spelling multiline (written ts)
  | comment _, ts => ts = [] ∨ ts.head? = some newline
  | newline, _ | char _, _ => True

/-- Whether tokens are told apart when they are written one after the other. -/
def Clear : List Token → Prop
  | [] => True
  | t :: ts => t.Readable ∧ t.EndsAt ts ∧ Clear ts

theorem isQuote_iff {c : Char} : isQuote c = true ↔ c = '"' ∨ c = '\'' := by
  simp [isQuote]

theorem tokens_newline (s : List Char) : tokens ('\n' :: s) = (tokens s).map (.newline :: ·) := by
  rw [tokens]
  cases tokens s <;> rfl

theorem tokens_comment {text rest : List Char} (hp : text.all isPlain = true)
    (hr : rest = [] ∨ rest.head? = some '\n') :
    tokens ('#' :: (text ++ rest)) = (tokens rest).map (.comment ('#' :: text) :: ·) := by
  have hn : text.all (fun c => decide (c ≠ '\n')) = true := List.all_eq_true.2 fun c hc => by
    have := List.all_eq_true.1 hp c hc
    rw [decide_eq_true_eq]
    rintro rfl
    simp [isPlain] at this
  have hl : text.getLast? ≠ some '\r' := fun h => by
    have := List.all_eq_true.1 hp _ (List.mem_of_getLast? h)
    simp [isPlain] at this
  obtain ⟨htake, hdrop⟩ := span_append hn (b := rest) fun c hc => by
    rcases hr with rfl | hr
    · cases hc
    · rw [hr, Option.some.injEq] at hc
      simp [← hc]
  have hread : readComment (text ++ rest) = some (.comment text, rest) := by
    simp only [readComment, htake, hdrop]
    simp [hl, hp]
  rw [tokens, if_pos rfl]
  · split
    · next h =>
      rw [hread] at h
      simp only [Option.some.injEq, Prod.mk.injEq, Token.comment.injEq] at h
      obtain ⟨rfl, rfl⟩ := h
      cases tokens rest <;> rfl
    · next h =>
      exact absurd hread (h text rest)
  · simp
  · simp

theorem tokens_quoted {quote : Char} (hq : isQuote quote = true) {s rest : List Char} {t : Token}
    (h : readQuoted quote s = some (t, rest)) :
    tokens (quote :: s) = (tokens rest).map (t :: ·) := by
  have hq' := isQuote_iff.1 hq
  rw [tokens, if_neg (by rcases hq' with rfl | rfl <;> decide), if_pos hq']
  · split
    · next h' =>
      rw [h] at h'
      cases h'
      cases tokens rest <;> rfl
    · next h' => simp [h] at h'
  · rcases hq' with rfl | rfl <;> simp
  · rcases hq' with rfl | rfl <;> simp

/-- A clear row is read as it is written. -/
theorem tokens_written {ts : List Token} (h : Clear ts) : tokens (written ts) = some ts := by
  induction ts with
  | nil => simp [written, tokens]
  | cons t ts ih =>
    obtain ⟨ht, hn, hts⟩ := h
    have hw : written (t :: ts) = t.text ++ written ts := rfl
    rw [hw]
    cases t with
    | quoted spelling multiline value =>
      obtain ⟨quote, body, hq, rfl, hread⟩ := ht
      rw [Token.text, List.cons_append, tokens_quoted hq (hread _ hn), ih hts]
      rfl
    | comment text =>
      obtain ⟨s, rfl, hs⟩ := ht
      rw [Token.text, List.cons_append, tokens_comment hs, ih hts]
      · rfl
      · rcases hn with rfl | hn
        · exact Or.inl rfl
        · cases ts with
          | nil => exact Or.inl rfl
          | cons u us =>
            simp only [List.head?_cons, Option.some.injEq] at hn
            subst hn
            exact Or.inr rfl
    | newline =>
      rw [Token.text, List.singleton_append, tokens_newline, ih hts]
      rfl
    | char c =>
      obtain ⟨hp, hc, hq⟩ := ht
      have hq' : ¬(c = '"' ∨ c = '\'') := fun e => by rw [isQuote_iff.2 e] at hq; simp at hq
      rw [not_or] at hq'
      rw [Token.text, List.singleton_append, tokens_cons _ hp hc hq'.1 hq'.2, ih hts]
      rfl

/-! ### Reading gives clear rows -/

theorem readComment_eq_some {s rest : List Char} {t : Token}
    (h : readComment s = some (t, rest)) :
    ∃ text, t = .comment text ∧ text.all isPlain = true ∧ (rest = [] ∨ rest.head? = some '\n') := by
  simp only [readComment, Option.ite_none_right_eq_some, Option.some.injEq, Prod.mk.injEq] at h
  obtain ⟨hp, rfl, rfl⟩ := h
  refine ⟨_, rfl, hp, ?_⟩
  have := List.head?_dropWhile_not (fun c => decide (c ≠ '\n')) s
  cases hd : (s.dropWhile fun c => decide (c ≠ '\n')) with
  | nil => exact Or.inl rfl
  | cons c r =>
    rw [hd] at this
    simp at this
    simp [this]

/-- A comment in front of a text without carriage returns goes to the end of its line. -/
theorem append_of_readComment {s text rest : List Char}
    (h : readComment s = some (.comment text, rest)) (hr : '\r' ∉ s) : s = text ++ rest := by
  simp only [readComment, Option.ite_none_right_eq_some, Option.some.injEq, Prod.mk.injEq,
    Token.comment.injEq] at h
  obtain ⟨-, htext, rfl⟩ := h
  have hline : (s.takeWhile fun c => decide (c ≠ '\n')).getLast? ≠ some '\r' := fun e =>
    hr ((List.takeWhile_prefix _).subset (List.mem_of_getLast? e))
  rw [if_neg (fun e => hline e.2)] at htext
  rw [← htext, List.takeWhile_append_dropWhile]

/-- A text begins with a token, which ends before the rest. -/
def Token.Begins (s rest : List Char) : Token → Prop
  | quoted spelling multiline _ => s = spelling ++ rest ∧ EndsBefore spelling multiline rest
  | comment _ => s.head? = some '#' ∧ (rest = [] ∨ rest.head? = some '\n')
  | newline => s = '\n' :: rest ∨ s = '\r' :: '\n' :: rest
  | char c => s = c :: rest

/-- Tokens are those of an empty text, or begin with one that can be read, which is written as it
was where there are no carriage returns. -/
theorem tokens_eq_some {s : List Char} {ts : List Token} (h : tokens s = some ts) :
    s = [] ∧ ts = [] ∨ ∃ t rest us, ts = t :: us ∧ t.Readable ∧ t.Begins s rest ∧
      rest.length < s.length ∧ tokens rest = some us ∧ ('\r' ∉ s → s = t.text ++ rest) := by
  have hdo : ∀ (t : Token) (o : Option (List Token)), (do return t :: (← o)) = some ts →
      ∃ us, ts = t :: us ∧ o = some us := by
    intro t o ho
    obtain ⟨us, hus, e⟩ := Option.bind_eq_some_iff.1 ho
    cases e
    exact ⟨us, rfl, hus⟩
  revert h
  fun_cases tokens s with
  | case1 => exact fun h => Or.inl ⟨rfl, by cases h; rfl⟩
  | case2 s =>
    intro h
    obtain ⟨us, rfl, hus⟩ := hdo _ _ h
    exact Or.inr ⟨.newline, s, us, rfl, trivial, Or.inr rfl,
      by simp only [List.length_cons]; omega, hus, fun hr => absurd List.mem_cons_self hr⟩
  | case3 s =>
    intro h
    obtain ⟨us, rfl, hus⟩ := hdo _ _ h
    exact Or.inr ⟨.newline, s, us, rfl, trivial, Or.inl rfl, by simp, hus, fun _ => rfl⟩
  | case4 s text rest hr =>
    intro h
    obtain ⟨us, rfl, hus⟩ := hdo _ _ h
    obtain ⟨_, ht, hp, hrest⟩ := readComment_eq_some hr
    cases ht
    refine Or.inr ⟨_, rest, us, rfl, ⟨_, rfl, hp⟩, ⟨rfl, hrest⟩,
      Nat.lt_succ_of_le (length_readComment hr), hus, fun hs => ?_⟩
    rw [append_of_readComment hr fun hm => hs (List.mem_cons_of_mem _ hm)]
    rfl
  | case6 quote s _ _ hc hq t rest hr =>
    intro h
    obtain ⟨us, rfl, hus⟩ := hdo _ _ h
    obtain ⟨body, multiline, value, rfl, rfl, hends, hother⟩ := readQuoted_append hr
    exact Or.inr ⟨_, rest, us, rfl, ⟨quote, body, isQuote_iff.2 hq, rfl, hother⟩, ⟨rfl, hends⟩,
      Nat.lt_succ_of_le (length_readQuoted hr), hus, fun _ => rfl⟩
  | case8 c s _ _ hc hq hp =>
    intro h
    obtain ⟨us, rfl, hus⟩ := hdo _ _ h
    have hq : isQuote c = false := by simpa [isQuote] using hq
    exact Or.inr ⟨_, s, us, rfl, ⟨hp, hc, hq⟩, rfl, by simp, hus, fun _ => rfl⟩
  | case5 | case7 | case9 => simp

/-- The tokens of a text start with a line end if it does, and with a quote only if it does. -/
theorem head_of_tokens {s : List Char} {ts : List Token} (h : tokens s = some ts) :
    (∀ q, isQuote q = true → (written ts).head? = some q → s.head? = some q) ∧
      (s.head? = some '\n' → ts.head? = some .newline) ∧ (s = [] → ts = []) := by
  obtain ⟨rfl, rfl⟩ | ⟨t, rest, us, rfl, ht, hb, hlt, -⟩ := tokens_eq_some h
  · simp [written]
  · have hs : s ≠ [] := by
      rintro rfl
      simp at hlt
    have hw : written (t :: us) = t.text ++ written us := rfl
    rw [hw]
    cases t with
    | quoted spelling multiline value =>
      obtain ⟨quote, body, hq, rfl, -⟩ := ht
      obtain ⟨rfl, -⟩ := hb
      refine ⟨fun q _ h => h, fun h => ?_, fun e => absurd e hs⟩
      simp only [List.cons_append, List.head?_cons, Option.some.injEq] at h
      simp [h, isQuote] at hq
    | comment text =>
      obtain ⟨s', rfl, -⟩ := ht
      refine ⟨fun q hq h => ?_, fun h => ?_, fun e => absurd e hs⟩
      · simp only [Token.text, List.cons_append, List.head?_cons, Option.some.injEq] at h
        simp [← h, isQuote] at hq
      · rw [hb.1] at h
        simp at h
    | newline =>
      refine ⟨fun q hq h => ?_, fun h => rfl, fun e => absurd e hs⟩
      simp only [Token.text, List.cons_append, List.head?_cons, Option.some.injEq] at h
      simp [← h, isQuote] at hq
    | char c =>
      obtain rfl : s = c :: rest := hb
      refine ⟨fun q _ h => h, fun h => ?_, fun e => absurd e hs⟩
      simp only [List.head?_cons, Option.some.injEq] at h
      rw [h] at ht
      simp [Token.Readable, isPlain] at ht

/-- What reading gives is clear. -/
theorem clear_of_tokens {s : List Char} {ts : List Token} (h : tokens s = some ts) : Clear ts := by
  obtain ⟨-, rfl⟩ | ⟨t, rest, us, rfl, ht, hb, hlt, hus, -⟩ := tokens_eq_some h
  · trivial
  · obtain ⟨hquote, hnewline, hnil⟩ := head_of_tokens hus
    refine ⟨ht, ?_, clear_of_tokens hus⟩
    cases t with
    | quoted spelling multiline value =>
      obtain ⟨quote, body, hq, rfl, -⟩ := ht
      intro hm hw
      exact hb.2 hm (by rw [hquote quote hq hw, List.head?_cons])
    | comment text => exact hb.2.imp hnil hnewline
    | newline | char c => trivial
termination_by s.length

/-! ### Parts of clear rows -/

theorem Clear.right {a b : List Token} (h : Clear (a ++ b)) : Clear b := by
  induction a with
  | nil => exact h
  | cons t a ih => exact ih h.2.2

theorem Clear.readable {ts : List Token} (h : Clear ts) : ∀ t ∈ ts, t.Readable := by
  induction ts with
  | nil => simp
  | cons t ts ih => exact List.forall_mem_cons.2 ⟨h.1, ih h.2.2⟩

theorem written_cons (t : Token) (ts : List Token) : written (t :: ts) = t.text ++ written ts := rfl

theorem Token.Readable.text_ne_nil {t : Token} (h : t.Readable) : t.text ≠ [] := by
  cases t with
  | quoted => obtain ⟨_, _, -, rfl, -⟩ := h; simp [text]
  | comment => obtain ⟨_, rfl, -⟩ := h; simp [text]
  | newline | char => simp [text]

/-- What is written for a row that starts with a readable token starts as that token does. -/
theorem Token.Readable.head?_written {t : Token} (h : t.Readable) (ts : List Token) :
    (written (t :: ts)).head? = t.text.head? := by
  rw [written_cons]
  cases ht : t.text with
  | nil => exact absurd ht h.text_ne_nil
  | cons => rfl

/-- Whether a token ends where the next one begins depends on nothing but the next one. -/
theorem Token.EndsAt.congr {t u : Token} {us vs : List Token} (hu : u.Readable)
    (h : t.EndsAt (u :: us)) : t.EndsAt (u :: vs) := by
  cases t with
  | quoted spelling multiline value =>
    simp only [EndsAt, EndsBefore, hu.head?_written] at h ⊢
    exact h
  | comment => simpa [EndsAt] using h
  | newline | char => trivial

/-- Rows with a line end between them are clear if both of them are. -/
theorem clear_line {a b : List Token} (ha : Clear a) (hb : Clear b) :
    Clear (a ++ .newline :: b) := by
  induction a with
  | nil => exact ⟨trivial, trivial, hb⟩
  | cons t a ih =>
    refine ⟨ha.1, ?_, ih ha.2.2⟩
    have hend := ha.2.1
    cases a with
    | cons u a => exact hend.congr ha.2.2.1
    | nil =>
      cases t with
      | quoted spelling multiline value =>
        obtain ⟨quote, body, hq, rfl, -⟩ := ha.1
        intro _ hw
        change (written (.newline :: b)).head? = some quote at hw
        rw [written_cons, Token.text, List.cons_append, List.head?_cons, Option.some.injEq] at hw
        simp [← hw, isQuote] at hq
      | comment => exact Or.inr rfl
      | newline | char => trivial

theorem Clear.left_of_newline {a b : List Token} (h : Clear (a ++ .newline :: b)) : Clear a := by
  induction a with
  | nil => trivial
  | cons t a ih =>
    refine ⟨h.1, ?_, ih h.2.2⟩
    have hend := h.2.1
    cases a with
    | cons u a => exact hend.congr h.2.2.1
    | nil =>
      cases t with
      | quoted spelling multiline value =>
        obtain ⟨quote, body, hq, rfl, -⟩ := h.1
        simp [Token.EndsAt, EndsBefore, written]
      | comment => exact Or.inl rfl
      | newline | char => trivial

/-! ### Pieces that fit before others -/

/-- A row after which nothing need be minded. -/
def Loose (g : List Token) : Prop :=
  ∀ ts, Clear ts → Clear (g ++ ts)

/-- A row that starts with no string. -/
def Calm (ts : List Token) : Prop :=
  ∀ spelling multiline value, ts.head? ≠ some (.quoted spelling multiline value)

/-- A row that may end with a string, after which no other may start. -/
def Sealed (l : List Token) : Prop :=
  ∀ ts, Calm ts → Clear ts → Clear (l ++ ts)

theorem Loose.nil : Loose [] :=
  fun _ h => h

theorem Loose.append {a b : List Token} (ha : Loose a) (hb : Loose b) : Loose (a ++ b) :=
  fun ts h => by
    rw [List.append_assoc]
    exact ha _ (hb _ h)

theorem Loose.sealed {g : List Token} (h : Loose g) : Sealed g :=
  fun ts _ => h ts

theorem Loose.clear {g : List Token} (h : Loose g) : Clear g := by
  simpa using h [] trivial

theorem calm_nil : Calm [] := by
  simp [Calm]

theorem calm_char (c : Char) (ts : List Token) : Calm (.char c :: ts) := by
  simp [Calm]

/-- A row of other tokens than strings starts with none. -/
theorem calm_append {kind : Token → Bool} (hk : ∀ s m v, kind (.quoted s m v) = false)
    {g ts : List Token} (hg : g.all kind = true) (h : Calm ts) : Calm (g ++ ts) := by
  cases g with
  | nil => exact h
  | cons t g =>
    rintro s m v e
    rw [List.cons_append, List.head?_cons, Option.some.injEq] at e
    rw [List.all_cons, e, hk, Bool.false_and] at hg
    cases hg

theorem loose_char {c : Char} (h : (Token.char c).Readable) : Loose [.char c] :=
  fun _ hts => ⟨h, trivial, hts⟩

/-- Characters may stand before anything. -/
theorem loose_chars {l : List Token} (hc : ∀ t ∈ l, ∃ c, t = .char c)
    (hr : ∀ t ∈ l, t.Readable) : Loose l := by
  induction l with
  | nil => exact Loose.nil
  | cons t l ih =>
    obtain ⟨c, rfl⟩ := hc t List.mem_cons_self
    exact (loose_char (hr _ List.mem_cons_self)).append
      (ih (fun u hu => hc u (List.mem_cons_of_mem _ hu))
        (fun u hu => hr u (List.mem_cons_of_mem _ hu)))

/-- A gap before something else than a line end may stand before anything: each comment in it has
a line end behind it. -/
theorem Clear.loose {g ts : List Token} {t : Token} (h : Clear (g ++ t :: ts))
    (hg : g.all Token.isGap = true) (ht : t ≠ .newline) : Loose g := by
  induction g with
  | nil => exact Loose.nil
  | cons u g ih =>
    rw [List.all_cons, Bool.and_eq_true] at hg
    intro vs hvs
    refine ⟨h.1, ?_, ih h.2.2 hg.2 vs hvs⟩
    have hend := h.2.1
    cases u with
    | quoted => simp [Token.isGap, Token.isBlank] at hg
    | comment text =>
      cases g with
      | nil => simp [Token.EndsAt, ht] at hend
      | cons w g => simpa [Token.EndsAt] using hend
    | newline | char c => trivial

theorem sealed_quoted {spelling value : List Char} {multiline : Bool}
    (h : (Token.quoted spelling multiline value).Readable) :
    Sealed [.quoted spelling multiline value] := by
  intro ts hc hts
  refine ⟨h, fun _ hw => ?_, hts⟩
  obtain ⟨quote, body, hq, rfl, -⟩ := h
  -- what is written next starts with a quote only if a string does
  cases ts with
  | nil => simp [written] at hw
  | cons t ts =>
    change (written (t :: ts)).head? = _ at hw
    rw [hts.1.head?_written, List.head?_cons] at hw
    have ht := hts.1
    cases t with
    | quoted => exact hc _ _ _ rfl
    | comment text =>
      obtain ⟨s, rfl, -⟩ := ht
      simp only [Token.text, List.head?_cons, Option.some.injEq] at hw
      simp [← hw, isQuote] at hq
    | newline =>
      simp only [Token.text, List.head?_cons, Option.some.injEq] at hw
      simp [← hw, isQuote] at hq
    | char c =>
      simp only [Token.text, List.head?_cons, Option.some.injEq] at hw
      rw [hw] at ht
      simp [Token.Readable, hq] at ht

end LintHost.Toml
