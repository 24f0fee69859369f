/-
LintHost/Proofs/Masking/Lines.lean

Masking, line by line.  A match of the second pattern may span many lines, but all of
them except the one with the request are blank, and blanks stay as they are
(`substitute_helpLine?_cons`).  So what becomes of a line does not depend on the lines
around it: a pattern works on lines (`OnLines`) if every line is replaced on its own.

Main result: masking makes of each line what `MaskedAs` says, and keeps them in place
(`forall₂_mask`); a line that it changes has the sign put in front of its first
character that is no blank (`MaskedAs.eq_or_marked`).
-/
import LintHost.Proofs.Masking.Matching
import LintHost.Proofs.Text.Pairing
import LintHost.Proofs.Text.Separators

namespace LintHost.Masking

open Text

/-! ### Replacing -/

section

variable (pattern : List Char → Option Replacement)

@[simp] theorem substitute_nil (skip : Nat) (atStart : Bool) :
    substitute pattern skip atStart [] = [] := by
  cases skip <;> rfl

/-- Where no match can start, a character stays as it is. -/
theorem substitute_false_cons (c : Char) (s : List Char) :
    substitute pattern 0 false (c :: s) = c :: substitute pattern 0 (c == '\n') s := rfl

theorem substitute_none {c : Char} {s : List Char} (h : pattern (c :: s) = none) :
    substitute pattern 0 true (c :: s) = c :: substitute pattern 0 (c == '\n') s := by
  rw [substitute, if_pos rfl, h]

theorem substitute_some {c : Char} {s : List Char} {r : Replacement}
    (h : pattern (c :: s) = some r) : substitute pattern 0 true (c :: s)
      = r.text ++ substitute pattern (r.covered - 1) (c == '\n') s := by
  rw [substitute, if_pos rfl, h]

/-- The rest of a line stays as it is. -/
theorem substitute_line {line : List Char} (h : '\n' ∉ line) (rest : List Char) :
    substitute pattern 0 false (line ++ rest) = line ++ substitute pattern 0 false rest := by
  induction line with
  | nil => rfl
  | cons c line ih =>
    have hc : (c == '\n') = false := beq_false_of_ne fun e => h (e ▸ List.mem_cons_self)
    rw [List.cons_append, substitute_false_cons, hc, ih fun hm => h (List.mem_cons_of_mem _ hm)]
    rfl

/-- A line that no match starts with stays as it is. -/
theorem substitute_unmatched {c : Char} {line rest : List Char} (hline : '\n' ∉ c :: line)
    (h : pattern (c :: line ++ rest) = none) :
    substitute pattern 0 true (c :: line ++ rest)
      = c :: line ++ substitute pattern 0 false rest :=
  (substitute_none pattern h).trans (substitute_line pattern hline rest)

/-- What a match covers is left out. -/
theorem substitute_covered (covered rest : List Char) (atStart : Bool) :
    ∃ atStart', substitute pattern covered.length atStart (covered ++ rest)
      = substitute pattern 0 atStart' rest := by
  induction covered generalizing atStart with
  | nil => exact ⟨atStart, rfl⟩
  | cons c covered ih => exact ih (c == '\n')

/-- A match is replaced, and the search goes on behind it. -/
theorem substitute_match {covered rest text : List Char} (hne : covered ≠ [])
    (h : pattern (covered ++ rest) = some ⟨text, covered.length⟩) :
    ∃ atStart, substitute pattern 0 true (covered ++ rest)
      = text ++ substitute pattern 0 atStart rest := by
  cases covered with
  | nil => exact absurd rfl hne
  | cons c covered =>
    obtain ⟨atStart, hs⟩ := substitute_covered pattern covered rest (c == '\n')
    refine ⟨atStart, ?_⟩
    rw [← hs]
    exact substitute_some pattern h

end

/-! ### Blanks -/

/-- A match covers something. -/
theorem exists_covered_of_helpLine? {s : List Char} {r : Replacement} (h : helpLine? s = some r) :
    ∃ d s' n, s = d :: s' ∧ r.covered = n + 1 := by
  obtain ⟨lead, request, trail, rest, hs, spans, rfl⟩ := exists_spans_of_helpLine? h
  have hne := spans.request.ne_nil
  cases s with
  | nil => simp [hne] at hs
  | cons d s =>
    refine ⟨d, s, (lead ++ request ++ trail).length - 1, rfl, ?_⟩
    have hl : 0 < request.length := List.length_pos_iff.2 hne
    simp only [List.length_append]
    omega

/-- A blank at the start of a line stays as it is, and the line might as well start behind it. -/
theorem substitute_helpLine?_cons {c : Char} (h : isBlank c = true) (s : List Char) :
    substitute helpLine? 0 true (c :: s) = c :: substitute helpLine? 0 true s := by
  have hc := helpLine?_cons_of_isBlank h s
  rcases e : helpLine? s with - | r
  · rw [e] at hc
    rw [substitute_none _ hc]
    cases s with
    | nil => rfl
    | cons d s =>
      rw [substitute_none _ e]
      cases c == '\n' with
      | true => rw [substitute_none _ e]
      | false => rfl
  · -- the blank is one more covered character, and the same search goes on behind the match
    obtain ⟨d, s, n, rfl, hn⟩ := exists_covered_of_helpLine? e
    rw [e, Option.map_some] at hc
    rw [substitute_some _ hc, substitute_some _ e]
    simp only [Replacement.behind, hn, Nat.add_sub_cancel, List.cons_append]
    rfl

theorem substitute_helpLine?_blanks {blanks : List Char} (h : AllOf isBlank blanks)
    (s : List Char) : substitute helpLine? 0 true (blanks ++ s)
      = blanks ++ substitute helpLine? 0 true s := by
  induction blanks with
  | nil => rfl
  | cons c blanks ih =>
    rw [List.cons_append, substitute_helpLine?_cons (h c List.mem_cons_self),
      ih fun d hd => h d (List.mem_cons_of_mem _ hd)]
    rfl

/-- At the end of a line it does not matter whether the line was empty. -/
theorem substitute_helpLine?_end {rest : List Char} (h : atLineEnd rest = true)
    (atStart : Bool) : substitute helpLine? 0 atStart rest = substitute helpLine? 0 false rest := by
  cases rest with
  | nil => rfl
  | cons c rest =>
    rw [atLineEnd, beq_iff_eq] at h
    subst h
    cases atStart with
    | true => exact substitute_helpLine?_cons rfl rest
    | false => rfl

/-! ### Patterns that work on lines -/

/-- Whether a pattern makes of every line something that `R` admits, and leaves it one line,
whatever stands behind it. -/
def OnLines (pattern : List Char → Option Replacement) (R : List Char → List Char → Prop) : Prop :=
  ∀ line rest : List Char, '\n' ∉ line → atLineEnd rest = true →
    ∃ out, '\n' ∉ out ∧ R line out ∧
      substitute pattern 0 true (line ++ rest) = out ++ substitute pattern 0 false rest

/-- **A pattern that works on lines** replaces every line of a text on its own. -/
theorem OnLines.forall₂ {pattern : List Char → Option Replacement}
    {R : List Char → List Char → Prop} (h : OnLines pattern R) (s : List Char) :
    List.Forall₂ R (splitOn '\n' s) (splitOn '\n' (substituteAll pattern s)) := by
  induction hn : s.length using Nat.strongRecOn generalizing s with
  | ind n ih =>
    by_cases hs : '\n' ∈ s
    · obtain ⟨line, rest, rfl, hline⟩ := List.eq_append_cons_of_mem hs
      obtain ⟨out, hout, hR, he⟩ := h line ('\n' :: rest) hline rfl
      have hrest := ih rest.length (by rw [← hn]; simp; omega) rest rfl
      rw [substituteAll, he, substitute_false_cons, splitOn_append_cons, splitOn_append_cons,
        splitOn_of_not_mem hline, splitOn_of_not_mem hout]
      exact .cons hR hrest
    · obtain ⟨out, hout, hR, he⟩ := h s [] hs rfl
      rw [List.append_nil, substitute_nil, List.append_nil] at he
      rw [substituteAll, he, splitOn_of_not_mem hs, splitOn_of_not_mem hout]
      exact .cons hR .nil

/-- What is cut off from a line and what follows it, without a line feed, is cut off from the
line. -/
theorem exists_of_line_append_eq {line rest a b : List Char} (h : line ++ rest = a ++ b)
    (ha : '\n' ∉ a) (hrest : atLineEnd rest = true) :
    ∃ more, line = a ++ more ∧ b = more ++ rest := by
  rcases List.append_eq_append_iff.1 h with ⟨more, rfl, hr⟩ | ⟨more, rfl, rfl⟩
  · cases more with
    | nil => exact ⟨[], by simp, hr.symm⟩
    | cons c more =>
      subst hr
      rw [List.cons_append, atLineEnd, beq_iff_eq] at hrest
      subst hrest
      exact absurd (List.mem_append_right line List.mem_cons_self) ha
  · exact ⟨more, rfl, rfl⟩

/-! ### The first pattern on lines -/

/-- A line and what the first pattern makes of it. -/
inductive CommandMasked : List Char → List Char → Prop
  | command (line : List Char) : CommandMasked ('%' :: line) (commentSign ++ '%' :: line)
  | plain {line : List Char} : line.head? ≠ some '%' → CommandMasked line line

theorem commandLine?_of_ne {s : List Char} (h : s.head? ≠ some '%') : commandLine? s = none := by
  unfold commandLine?
  split
  · exact absurd rfl h
  · rfl

theorem onLines_commandLine? : OnLines commandLine? CommandMasked := by
  intro line rest hline hrest
  by_cases hc : line.head? = some '%'
  · obtain ⟨line, rfl⟩ : ∃ more, line = '%' :: more := by
      cases line with
      | nil => cases hc
      | cons c more => exact ⟨more, by rw [Option.some.inj hc]⟩
    refine ⟨commentSign ++ '%' :: line, ?_, .command line, ?_⟩
    · simpa [commentSign] using hline
    · rw [List.cons_append, substitute_some (r := ⟨commentSign ++ ['%'], 1⟩) _ rfl]
      show commentSign ++ ['%'] ++ substitute commandLine? 0 false (line ++ rest) = _
      rw [substitute_line _ fun hm => hline (List.mem_cons_of_mem _ hm)]
      simp
  · refine ⟨line, hline, .plain hc, ?_⟩
    cases line with
    | nil =>
      cases rest with
      | nil => rfl
      | cons c rest =>
        rw [atLineEnd, beq_iff_eq] at hrest
        subst hrest
        rfl
    | cons c line => exact substitute_unmatched _ hline (commandLine?_of_ne hc)

/-! ### The second pattern on lines -/

/-- Whether a line holds a help request and blanks around it, and nothing else. -/
def IsHelp (line : List Char) : Prop :=
  ∃ lead request trail, line = lead ++ request ++ trail ∧ AllOf isBlank lead ∧ Request request ∧
    AllOf isBlank trail

/-- A line and what the second pattern makes of it. -/
inductive HelpMasked : List Char → List Char → Prop
  | request {lead request trail : List Char} :
      AllOf isBlank lead → Request request → AllOf isBlank trail →
        HelpMasked (lead ++ request ++ trail) (lead ++ commentSign ++ request ++ trail)
  | plain {line : List Char} : ¬ IsHelp line → HelpMasked line line

theorem not_isHelp_nil : ¬ IsHelp [] := by
  rintro ⟨lead, request, trail, h, -, hr, -⟩
  apply hr.ne_nil
  simp_all

theorem IsHelp.of_cons {c : Char} (hc : isBlank c = true) {line : List Char}
    (h : IsHelp (c :: line)) : IsHelp line := by
  obtain ⟨lead, request, trail, h, hl, hr, ht⟩ := h
  cases lead with
  | nil =>
    cases request with
    | nil => exact absurd rfl hr.ne_nil
    | cons d request =>
      obtain ⟨rfl, -⟩ := List.cons.inj h
      rw [hr.not_blank c List.mem_cons_self] at hc
      cases hc
  | cons d lead =>
    obtain ⟨-, rfl⟩ := List.cons.inj h
    exact ⟨lead, request, trail, rfl, fun c hc => hl c (List.mem_cons_of_mem _ hc), hr, ht⟩

theorem HelpMasked.cons_blank {c : Char} (hc : isBlank c = true) {line out : List Char}
    (h : HelpMasked line out) : HelpMasked (c :: line) (c :: out) := by
  cases h with
  | request hl hr ht => exact .request (hl.cons hc) hr ht
  | plain hn => exact .plain fun h => hn (h.of_cons hc)

/-- A match at something else than a blank is a help request and blanks. -/
theorem exists_request_of_helpLine? {s : List Char} (hs : ∀ c ∈ s.head?, isBlank c = false)
    {r : Replacement} (h : helpLine? s = some r) :
    ∃ request trail rest, s = request ++ (trail ++ rest) ∧ Spans [] request trail rest ∧
      r = ⟨commentSign ++ request ++ trail, (request ++ trail).length⟩ := by
  obtain ⟨lead, request, trail, rest, rfl, spans, rfl⟩ := exists_spans_of_helpLine? h
  cases lead with
  | nil => exact ⟨request, trail, rest, by simp, spans, rfl⟩
  | cons d lead =>
    have hd := hs d (by simp)
    rw [spans.lead d List.mem_cons_self] at hd
    cases hd

/-- A request is replaced, and of the blanks behind it those below its line stay as they are. -/
theorem substitute_helpLine?_request {request trail more rest : List Char}
    (spans : Spans [] request (trail ++ more) rest) (hrest : atLineEnd (more ++ rest) = true)
    (h : helpLine? (request ++ (trail ++ more) ++ rest)
      = some ⟨commentSign ++ request ++ (trail ++ more), (request ++ (trail ++ more)).length⟩) :
    substitute helpLine? 0 true (request ++ (trail ++ more) ++ rest)
      = commentSign ++ request ++ trail ++ substitute helpLine? 0 false (more ++ rest) := by
  have hne : request ++ (trail ++ more) ≠ [] := by simp [spans.request.ne_nil]
  have hmore : AllOf isBlank more := fun d hd => spans.trail d (List.mem_append_right _ hd)
  obtain ⟨atStart, hm⟩ := substitute_match helpLine? hne h
  calc substitute helpLine? 0 true (request ++ (trail ++ more) ++ rest)
      = commentSign ++ request ++ trail ++ (more ++ substitute helpLine? 0 true rest) := by
        rw [hm, substitute_helpLine?_end spans.ends atStart,
          substitute_helpLine?_end spans.ends true]
        simp
    _ = commentSign ++ request ++ trail ++ substitute helpLine? 0 false (more ++ rest) := by
        rw [← substitute_helpLine?_blanks hmore, substitute_helpLine?_end hrest true]

/-- A line that starts with something else than a blank is replaced up to its end or not at all. -/
theorem helpMasked_of_not_blank {c : Char} (hc : isBlank c = false) {line rest : List Char}
    (hline : '\n' ∉ c :: line) (hrest : atLineEnd rest = true) :
    ∃ out, '\n' ∉ out ∧ HelpMasked (c :: line) out ∧
      substitute helpLine? 0 true (c :: line ++ rest)
        = out ++ substitute helpLine? 0 false rest := by
  rcases e : helpLine? (c :: line ++ rest) with - | r
  · refine ⟨c :: line, hline, .plain ?_, ?_⟩
    · rintro ⟨lead, request, trail, h, hl, hr, ht⟩
      rw [h] at e
      exact helpLine?_ne_none ⟨hl, hr, ht, hrest⟩ e
    · exact substitute_unmatched _ hline e
  · obtain ⟨request, trail, rest', hs, spans, rfl⟩ := exists_request_of_helpLine? (by simpa using hc) e
    have hr : '\n' ∉ request := by
      intro hm
      have hb := spans.request.not_blank _ hm
      cases hb
    -- the request stands within the line, the blanks behind it may go on below
    obtain ⟨trail', hl, ht⟩ := exists_of_line_append_eq hs hr hrest
    have ht' : '\n' ∉ trail' := fun hm => hline (hl ▸ List.mem_append_right _ hm)
    obtain ⟨more, rfl, rfl⟩ := exists_of_line_append_eq ht ht' spans.ends
    have hblank : AllOf isBlank trail' := fun d hd => spans.trail d (List.mem_append_left _ hd)
    refine ⟨commentSign ++ request ++ trail', ?_, ?_, ?_⟩
    · rw [hl] at hline
      simpa [commentSign] using hline
    · rw [hl]
      exact @HelpMasked.request [] request trail' spans.lead spans.request hblank
    · have hwhole : c :: line ++ (more ++ rest') = request ++ (trail' ++ more) ++ rest' := by
        rw [hl]
        simp
      rw [hwhole] at e ⊢
      exact substitute_helpLine?_request spans hrest e

theorem onLines_helpLine? : OnLines helpLine? HelpMasked := by
  intro line rest hline hrest
  induction line with
  | nil => exact ⟨[], hline, .plain not_isHelp_nil, substitute_helpLine?_end hrest true⟩
  | cons c line ih =>
    rcases hc : isBlank c with - | -
    · exact helpMasked_of_not_blank hc hline hrest
    · obtain ⟨out, hout, hm, he⟩ := ih fun hm => hline (List.mem_cons_of_mem _ hm)
      refine ⟨c :: out, ?_, hm.cons_blank hc, ?_⟩
      · intro h
        rcases List.mem_cons.1 h with rfl | h
        · exact hline List.mem_cons_self
        · exact hout h
      · rw [List.cons_append, substitute_helpLine?_cons hc, he]
        rfl

/-! ### Masking on lines -/

/-- A line and what masking makes of it. -/
inductive MaskedAs : List Char → List Char → Prop
  | command (line : List Char) : MaskedAs ('%' :: line) (commentSign ++ '%' :: line)
  | request {lead request trail : List Char} : (lead ++ request).head? ≠ some '%' →
      AllOf isBlank lead → Request request → AllOf isBlank trail →
        MaskedAs (lead ++ request ++ trail) (lead ++ commentSign ++ request ++ trail)
  | plain {line : List Char} : line.head? ≠ some '%' → ¬ IsHelp line → MaskedAs line line

/-- A line that starts with the sign is no help request: there is a blank behind its first
character. -/
theorem not_isHelp_signed (rest : List Char) : ¬ IsHelp (commentSign ++ rest) := by
  rintro ⟨lead, request, trail, h, hl, hr, -⟩
  cases lead with
  | cons c lead =>
    obtain ⟨rfl, -⟩ := List.cons.inj h
    have hb := hl '#' List.mem_cons_self
    cases hb
  | nil =>
    have htwo := hr.two_le_length
    match request, htwo with
    | c :: d :: request, _ =>
      obtain ⟨-, h⟩ := List.cons.inj h
      obtain ⟨rfl, -⟩ := List.cons.inj h
      have hb := hr.not_blank ' ' (List.mem_cons_of_mem _ List.mem_cons_self)
      cases hb

/-- No line is changed by both patterns. -/
theorem maskedAs_of_both {line between out : List Char} (hc : CommandMasked line between)
    (hh : HelpMasked between out) : MaskedAs line out := by
  cases hc with
  | command line =>
    generalize he : commentSign ++ '%' :: line = between at hh
    cases hh with
    | request hl hr ht => exact absurd ⟨_, _, _, he, hl, hr, ht⟩ (not_isHelp_signed _)
    | plain hn => exact he ▸ .command line
  | plain hne =>
    cases hh with
    | request hl hr ht =>
      refine .request ?_ hl hr ht
      rw [List.head?_append_of_ne_nil _ fun e => hr.ne_nil (List.append_eq_nil_iff.1 e).2] at hne
      exact hne
    | plain hn => exact .plain hne hn

/-- **Masking works line by line**: every line of the masked text is what masking makes of the line
in its place. -/
theorem forall₂_mask (s : List Char) :
    List.Forall₂ MaskedAs (splitOn '\n' s) (splitOn '\n' (mask s)) := by
  have hc := onLines_commandLine?.forall₂ s
  have hh := onLines_helpLine?.forall₂ (substituteAll commandLine? s)
  have both : ∀ line between out, CommandMasked line between → HelpMasked between out →
      MaskedAs line out := fun _ _ _ => maskedAs_of_both
  exact forall₂_trans both hc hh

/-! ### Marked lines -/

/-- A line and the same line with the sign in front of its first character that is no blank. -/
inductive Marked : List Char → List Char → Prop
  | intro {blanks : List Char} {c : Char} {rest : List Char} :
      AllOf isBlank blanks → isBlank c = false →
        Marked (blanks ++ c :: rest) (blanks ++ commentSign ++ c :: rest)

/-- Masking leaves a line as it is, where there is nothing to mask, or puts the sign into it. -/
theorem MaskedAs.plain_or_marked {line out : List Char} (h : MaskedAs line out) :
    (out = line ∧ line.head? ≠ some '%' ∧ ¬ IsHelp line) ∨ Marked line out := by
  cases h with
  | command line =>
    have hnone : AllOf isBlank [] := fun _ h => absurd h List.not_mem_nil
    exact .inr (@Marked.intro [] '%' line hnone rfl)
  | @request lead request trail _ hl hr _ =>
    cases request with
    | nil => exact absurd rfl hr.ne_nil
    | cons c request =>
      have hc := hr.not_blank c List.mem_cons_self
      have hm : Marked (lead ++ c :: (request ++ trail))
          (lead ++ commentSign ++ c :: (request ++ trail)) := .intro hl hc
      right
      simpa using hm
  | plain hne hno => exact .inl ⟨rfl, hne, hno⟩

/-- Masking leaves a line as it is or puts the sign into it. -/
theorem MaskedAs.eq_or_marked {line out : List Char} (h : MaskedAs line out) :
    out = line ∨ Marked line out :=
  h.plain_or_marked.imp_left And.left

end LintHost.Masking
