/-
LintHost/Proofs/Masking/Matching.lean

What the patterns match.  A pattern takes a word from the front of a text and hands
the rest to a continuation; if that does not answer, the pattern tries another word.
So whatever the order in which words are tried, it answers if and only if the
continuation answers behind one of its words, and its answer is one of those
(`Takes`).  Patterns that are tried in a row take the words put together
(`Takes.then`), and a choice of two takes the words of both (`Takes.or`).

Main results: a match of the second pattern is blanks, a help request and blanks, up
to the end of a line (`exists_spans_of_helpLine?`), and wherever there are such blanks
and such a request there is a match (`helpLine?_ne_none`).  A request has no blank in
it (`Request.not_blank`).
-/
import LintHost.Masking

namespace LintHost.Masking

open Text

variable {α β : Type}

/-! ### Words of a pattern -/

/-- Whether a pattern tries exactly the words that satisfy `L`, in some order, until the
continuation answers. -/
structure Takes (pattern : Continue α → Continue α) (L : List Char → Prop) : Prop where
  sound : ∀ {next : Continue α} {taken s : List Char} {x : α},
    pattern next taken s = some x →
      ∃ word rest, s = word ++ rest ∧ L word ∧ next (word.reverse ++ taken) rest = some x
  complete : ∀ {next : Continue α} {taken word rest : List Char},
    L word → next (word.reverse ++ taken) rest ≠ none → pattern next taken (word ++ rest) ≠ none

variable {f g : Continue α → Continue α} {L M : List Char → Prop}

theorem Takes.congr (h : Takes f L) (hw : ∀ word, L word ↔ M word) : Takes f M := by
  have e : L = M := funext fun word => propext (hw word)
  rw [← e]
  exact h

theorem takes_nothing : Takes (α := α) (fun next => next) (fun word => word = []) where
  sound := fun h => ⟨[], _, rfl, rfl, h⟩
  complete := by
    rintro next taken word rest rfl h
    exact h

/-- Patterns in a row take one word each. -/
theorem Takes.then (hf : Takes f L) (hg : Takes g M) :
    Takes (fun next => f (g next)) (fun word => ∃ a b, word = a ++ b ∧ L a ∧ M b) where
  sound := by
    intro next taken s x h
    obtain ⟨a, s', rfl, ha, h⟩ := hf.sound h
    obtain ⟨b, rest, rfl, hb, h⟩ := hg.sound h
    refine ⟨a ++ b, rest, (List.append_assoc a b rest).symm, ⟨a, b, rfl, ha, hb⟩, ?_⟩
    rw [List.reverse_append, List.append_assoc]
    exact h
  complete := by
    rintro next taken _ rest ⟨a, b, rfl, ha, hb⟩ h
    rw [List.append_assoc]
    apply hf.complete ha
    apply hg.complete hb
    rw [List.reverse_append, List.append_assoc] at h
    exact h

/-- A choice takes the words of either pattern. -/
theorem Takes.or (hf : Takes f L) (hg : Takes g M) :
    Takes (fun next taken s => f next taken s <|> g next taken s)
      (fun word => L word ∨ M word) where
  sound := by
    intro next taken s x h
    rw [Option.orElse_eq_orElse, Option.orElse_eq_or, Option.or_eq_some_iff] at h
    rcases h with h | ⟨-, h⟩
    · obtain ⟨word, rest, hs, hw, h⟩ := hf.sound h
      exact ⟨word, rest, hs, .inl hw, h⟩
    · obtain ⟨word, rest, hs, hw, h⟩ := hg.sound h
      exact ⟨word, rest, hs, .inr hw, h⟩
  complete := by
    intro next taken word rest hw h
    rw [Option.orElse_eq_orElse, Option.orElse_eq_or, Ne, Option.or_eq_none_iff]
    intro hn
    rcases hw with hw | hw
    · exact hf.complete hw h hn.1
    · exact hg.complete hw h hn.2

/-! ### The words of each pattern -/

/-- Whether all characters of a word are in a class. -/
def AllOf (p : Char → Bool) (word : List Char) : Prop :=
  ∀ c ∈ word, p c = true

/-- Whether a word is made of one or more characters of a class. -/
def SomeOf (p : Char → Bool) (word : List Char) : Prop :=
  word ≠ [] ∧ AllOf p word

theorem AllOf.cons {p : Char → Bool} {c : Char} {word : List Char} (hc : p c = true)
    (h : AllOf p word) : AllOf p (c :: word) :=
  List.forall_mem_cons.2 ⟨hc, h⟩

/-- One question mark or two. -/
def Marks (word : List Char) : Prop :=
  word = ['?', '?'] ∨ word = ['?']

/-- A help request: marks and a name, or a word and marks. -/
inductive Request : List Char → Prop
  | before {marks name : List Char} :
      Marks marks → SomeOf isNamePart name → Request (marks ++ name)
  | behind {word marks : List Char} :
      SomeOf (fun c => !isBlank c) word → Marks marks → Request (word ++ marks)

theorem takes_most (p : Char → Bool) : Takes (α := α) (takeMost p) (AllOf p) where
  sound := by
    intro next taken s x h
    induction s generalizing taken with
    | nil => exact ⟨[], [], rfl, fun _ hc => absurd hc List.not_mem_nil, h⟩
    | cons c s ih =>
      have stop : next taken (c :: s) = some x → ∃ word rest, c :: s = word ++ rest ∧
          AllOf p word ∧ next (word.reverse ++ taken) rest = some x :=
        fun h => ⟨[], c :: s, rfl, fun _ hc => absurd hc List.not_mem_nil, h⟩
      rw [takeMost] at h
      split at h
      · next hc =>
        rw [Option.orElse_eq_orElse, Option.orElse_eq_or, Option.or_eq_some_iff] at h
        rcases h with h | ⟨-, h⟩
        · obtain ⟨word, rest, rfl, hw, h⟩ := ih h
          refine ⟨c :: word, rest, rfl, hw.cons hc, ?_⟩
          rw [List.reverse_cons, List.append_assoc]
          exact h
        · exact stop h
      · exact stop h
  complete := by
    intro next taken word rest hw h
    induction word generalizing taken with
    | nil =>
      cases rest with
      | nil => exact h
      | cons c rest =>
        rw [List.nil_append, takeMost]
        split
        · rw [Option.orElse_eq_orElse, Option.orElse_eq_or, Ne, Option.or_eq_none_iff]
          exact fun hn => h hn.2
        · exact h
    | cons c word ih =>
      have hc : p c = true := hw c List.mem_cons_self
      rw [List.reverse_cons, List.append_assoc] at h
      have hr := ih (fun d hd => hw d (List.mem_cons_of_mem _ hd)) h
      rw [List.cons_append, takeMost, if_pos hc, Option.orElse_eq_orElse, Option.orElse_eq_or, Ne,
        Option.or_eq_none_iff]
      exact fun hn => hr hn.1

theorem takes_some (p : Char → Bool) : Takes (α := α) (takeSome p) (SomeOf p) where
  sound := by
    intro next taken s x h
    cases s with
    | nil => cases h
    | cons c s =>
      rw [takeSome, Option.ite_none_right_eq_some] at h
      obtain ⟨hc, h⟩ := h
      obtain ⟨word, rest, rfl, hw, h⟩ := (takes_most p).sound h
      refine ⟨c :: word, rest, rfl, ⟨List.cons_ne_nil c word, hw.cons hc⟩, ?_⟩
      rw [List.reverse_cons, List.append_assoc]
      exact h
  complete := by
    rintro next taken word rest ⟨hne, hw⟩ h
    cases word with
    | nil => exact absurd rfl hne
    | cons c word =>
      rw [List.reverse_cons, List.append_assoc] at h
      rw [List.cons_append, takeSome, if_pos (hw c List.mem_cons_self)]
      exact (takes_most p).complete (fun d hd => hw d (List.mem_cons_of_mem _ hd)) h

theorem takes_mark : Takes (α := α) takeMark (fun word => word = ['?']) where
  sound := by
    intro next taken s x h
    unfold takeMark at h
    split at h
    · next rest => exact ⟨['?'], rest, rfl, rfl, h⟩
    · cases h
  complete := by
    rintro next taken word rest rfl h
    exact h

theorem takes_marks : Takes (α := α) takeMarks Marks := by
  apply (takes_mark.then (takes_mark.or takes_nothing)).congr
  intro word
  constructor
  · rintro ⟨a, b, rfl, rfl, rfl | rfl⟩
    · exact .inl rfl
    · exact .inr rfl
  · rintro (rfl | rfl)
    · exact ⟨['?'], ['?'], rfl, rfl, .inl rfl⟩
    · exact ⟨['?'], [], rfl, rfl, .inr rfl⟩

theorem takes_request : Takes (α := α) takeRequest Request := by
  apply ((takes_marks.then (takes_some _)).or ((takes_some _).then takes_marks)).congr
  intro word
  constructor
  · rintro (⟨marks, name, rfl, hm, hn⟩ | ⟨body, marks, rfl, hb, hm⟩)
    · exact .before hm hn
    · exact .behind hb hm
  · intro h
    cases h with
    | before hm hn => exact .inl ⟨_, _, rfl, hm, hn⟩
    | behind hb hm => exact .inr ⟨_, _, rfl, hb, hm⟩

/-! ### Requests have no blanks -/

/-- The code points of the blanks. -/
def blankPoints : List Nat :=
  [9, 10, 11, 12, 13, 0x20, 0x85, 0xA0, 0x1680, 0x2000, 0x2001, 0x2002, 0x2003, 0x2004, 0x2005,
    0x2006, 0x2007, 0x2008, 0x2009, 0x200A, 0x2028, 0x2029, 0x202F, 0x205F, 0x3000]

theorem mem_blankPoints {c : Char} (h : isBlank c = true) : c.toNat ∈ blankPoints := by
  simp only [isBlank, Bool.or_eq_true, Bool.and_eq_true, decide_eq_true_eq, beq_iff_eq] at h
  simp only [blankPoints, List.mem_cons, List.not_mem_nil, or_false]
  omega

/-- No blank is a word character. -/
theorem isWord_of_isBlank {c : Char} (h : isBlank c = true) : isWord c = false := by
  have looked : ∀ n ∈ blankPoints, isWord (Char.ofNat n) = false := by decide +kernel
  have hc := looked c.toNat (mem_blankPoints h)
  rw [Char.ofNat_toNat] at hc
  exact hc

theorem not_blank_of_isNamePart {c : Char} (h : isNamePart c = true) : isBlank c = false := by
  rw [← Bool.not_eq_true]
  intro hb
  rw [isNamePart, isWord_of_isBlank hb, Bool.false_or, beq_iff_eq] at h
  subst h
  cases hb

theorem Marks.not_blank {word : List Char} (h : Marks word) : ∀ c ∈ word, isBlank c = false := by
  intro c hc
  obtain rfl : c = '?' := by
    rcases h with rfl | rfl
    · simpa using hc
    · simpa using hc
  rfl

/-- A help request has no blank in it. -/
theorem Request.not_blank {word : List Char} (h : Request word) :
    ∀ c ∈ word, isBlank c = false := by
  cases h with
  | before hm hn =>
    intro c hc
    rcases List.mem_append.1 hc with hc | hc
    · exact hm.not_blank c hc
    · exact not_blank_of_isNamePart (hn.2 c hc)
  | behind hw hm =>
    intro c hc
    rcases List.mem_append.1 hc with hc | hc
    · exact Bool.not_eq_true' _ ▸ hw.2 c hc
    · exact hm.not_blank c hc

theorem Marks.ne_nil {word : List Char} (h : Marks word) : word ≠ [] := by
  rcases h with rfl | rfl
  · exact List.cons_ne_nil _ _
  · exact List.cons_ne_nil _ _

/-- A help request is a mark and something else at least. -/
theorem Request.two_le_length {word : List Char} (h : Request word) : 2 ≤ word.length := by
  cases h with
  | before hm hn =>
    have h₁ := List.length_pos_iff.2 hm.ne_nil
    have h₂ := List.length_pos_iff.2 hn.1
    rw [List.length_append]
    omega
  | behind hw hm =>
    have h₁ := List.length_pos_iff.2 hw.1
    have h₂ := List.length_pos_iff.2 hm.ne_nil
    rw [List.length_append]
    omega

theorem Request.ne_nil {word : List Char} (h : Request word) : word ≠ [] := by
  have := h.two_le_length
  rintro rfl
  simp at this

/-! ### Matches of the second pattern -/

/-- The parts of a match at the start of a line, and the text behind it. -/
structure Spans (lead request trail rest : List Char) : Prop where
  lead : AllOf isBlank lead
  request : Request request
  trail : AllOf isBlank trail
  ends : atLineEnd rest = true

/-- **A match is blanks, a help request and blanks, up to the end of a line**, and the sign is put
in front of the request. -/
theorem exists_spans_of_helpLine? {s : List Char} {r : Replacement} (h : helpLine? s = some r) :
    ∃ lead request trail rest, s = lead ++ request ++ trail ++ rest ∧
      Spans lead request trail rest ∧
      r = ⟨lead ++ commentSign ++ request ++ trail, (lead ++ request ++ trail).length⟩ := by
  unfold helpLine? at h
  obtain ⟨lead, s, rfl, hl, h⟩ := (takes_most _).sound h
  obtain ⟨request, s, rfl, hr, h⟩ := takes_request.sound h
  obtain ⟨trail, rest, rfl, ht, h⟩ := (takes_most _).sound h
  rw [Option.ite_none_right_eq_some] at h
  refine ⟨lead, request, trail, rest, by simp, ⟨hl, hr, ht, h.1⟩, ?_⟩
  rw [← Option.some.inj h.2]
  simp [Replacement.ofParts, Nat.add_assoc]

/-- Where there are blanks, a help request and blanks up to the end of a line, there is a match. -/
theorem helpLine?_ne_none {lead request trail rest : List Char}
    (h : Spans lead request trail rest) : helpLine? (lead ++ request ++ trail ++ rest) ≠ none := by
  rw [List.append_assoc, List.append_assoc]
  unfold helpLine?
  apply (takes_most _).complete h.lead
  apply takes_request.complete h.request
  apply (takes_most _).complete h.trail
  rw [if_pos h.ends]
  exact Option.some_ne_none _

/-! ### Answers are handed on -/

section

variable (p : Char → Bool) (answer : α → β) (next : Continue α) (taken s : List Char)

theorem takeMost_map : takeMost p (fun taken s => (next taken s).map answer) taken s
    = (takeMost p next taken s).map answer := by
  induction s generalizing taken with
  | nil => rfl
  | cons c s ih =>
    rw [takeMost, takeMost, ih]
    split
    · rw [Option.orElse_eq_orElse, Option.orElse_eq_or, Option.orElse_eq_orElse,
        Option.orElse_eq_or, Option.map_or]
    · rfl

theorem takeSome_map : takeSome p (fun taken s => (next taken s).map answer) taken s
    = (takeSome p next taken s).map answer := by
  cases s with
  | nil => rfl
  | cons c s =>
    rw [takeSome, takeSome, takeMost_map]
    split
    · rfl
    · rfl

theorem takeMark_map : takeMark (fun taken s => (next taken s).map answer) taken s
    = (takeMark next taken s).map answer := by
  unfold takeMark
  split
  · rfl
  · rfl

theorem takeMarks_map : takeMarks (fun taken s => (next taken s).map answer) taken s
    = (takeMarks next taken s).map answer := by
  unfold takeMarks
  simp only [takeMark_map, Option.orElse_eq_orElse, Option.orElse_eq_or, ← Option.map_or]

theorem takeRequest_map : takeRequest (fun taken s => (next taken s).map answer) taken s
    = (takeRequest next taken s).map answer := by
  have some_map : ∀ q : Char → Bool, takeSome q (fun taken s => (next taken s).map answer)
      = fun taken s => (takeSome q next taken s).map answer :=
    fun q => funext fun taken => funext fun s => takeSome_map q answer next taken s
  have marks_map : takeMarks (fun taken s => (next taken s).map answer)
      = fun taken s => (takeMarks next taken s).map answer :=
    funext fun taken => funext fun s => takeMarks_map answer next taken s
  unfold takeRequest
  rw [some_map, marks_map, takeMarks_map, takeSome_map, Option.orElse_eq_orElse,
    Option.orElse_eq_or, Option.orElse_eq_orElse, Option.orElse_eq_or, Option.map_or]

/-- What stands before the word is handed on with it. -/
theorem takeMost_append (before : List Char) : takeMost p next (taken ++ before) s
    = takeMost p (fun taken s => next (taken ++ before) s) taken s := by
  induction s generalizing taken with
  | nil => rfl
  | cons c s ih =>
    rw [takeMost, takeMost, ← ih]
    rfl

end

/-- The second pattern behind the blanks that it starts with. -/
def requestBehind (lead s : List Char) : Option Replacement :=
  takeRequest (fun request s =>
    takeMost isBlank (fun trail s =>
      if atLineEnd s then some (.ofParts lead request trail) else none) [] s) [] s

theorem helpLine?_eq (s : List Char) : helpLine? s = takeMost isBlank requestBehind [] s := rfl

/-- A replacement with one more character in front of the match. -/
def Replacement.behind (c : Char) (r : Replacement) : Replacement :=
  ⟨c :: r.text, r.covered + 1⟩

theorem ofParts_behind (c : Char) (lead request trail : List Char) :
    Replacement.ofParts (lead ++ [c]) request trail
      = (Replacement.ofParts lead request trail).behind c := by
  simp [Replacement.ofParts, Replacement.behind]
  omega

theorem requestBehind_behind (c : Char) (lead s : List Char) :
    requestBehind (lead ++ [c]) s = (requestBehind lead s).map (.behind c) := by
  unfold requestBehind
  rw [← takeRequest_map]
  congr 1
  funext request s
  rw [← takeMost_map]
  congr 1
  funext trail s
  split
  · rw [ofParts_behind]
    rfl
  · rfl

/-- No request starts with a blank. -/
theorem requestBehind_of_isBlank {c : Char} (h : isBlank c = true) (lead s : List Char) :
    requestBehind lead (c :: s) = none := by
  rw [Option.eq_none_iff_forall_not_mem]
  intro r hr
  obtain ⟨request, rest, hs, hq, -⟩ := takes_request.sound (Option.mem_def.1 hr)
  cases request with
  | nil => exact hq.ne_nil rfl
  | cons d request =>
    obtain ⟨rfl, -⟩ := List.cons.inj hs
    rw [hq.not_blank c List.mem_cons_self] at h
    cases h

/-- **A blank in front of a text stands in front of its match**, and makes no other difference. -/
theorem helpLine?_cons_of_isBlank {c : Char} (h : isBlank c = true) (s : List Char) :
    helpLine? (c :: s) = (helpLine? s).map (.behind c) := by
  have handed : (fun lead s => requestBehind ([] ++ lead ++ [c]) s)
      = fun lead s => (requestBehind lead s).map (.behind c) :=
    funext fun lead => funext fun s => requestBehind_behind c lead s
  calc helpLine? (c :: s)
      = takeMost isBlank requestBehind ([] ++ [c]) s := by
        rw [helpLine?_eq, takeMost, if_pos h, requestBehind_of_isBlank h,
          Option.orElse_eq_orElse, Option.orElse_eq_or, Option.or_none]
        rfl
    _ = takeMost isBlank (fun lead s => (requestBehind lead s).map (.behind c)) [] s := by
        rw [takeMost_append]
        exact congrArg (takeMost isBlank · [] s) handed
    _ = (helpLine? s).map (.behind c) := takeMost_map isBlank _ _ _ _

end LintHost.Masking
