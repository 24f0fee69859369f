/-
LintHost/Proofs/Masking/LineByLine.lean

Masking as a rule for one line (`maskLine`).  A line that starts with `%` gets the sign
in front of it.  Of any other line the blanks at both ends are put aside; if what is
left has no blank in it and asks for help (`asksHelp`), the sign stands in front of
that, and else the line stays as it is.  A line looked at in this way is one that
holds a help request and blanks around it (`isHelpLine_iff`).

Main result: the text for the analyzer is the placeholders and then the lines of the
user's text, each masked by this rule and none by what stands around it; so the
masked text of two texts with a line feed between them is that of the first, a line
feed, and that of the second (`masks_line_by_line`).
-/
import LintHost.Proofs.Masking.Lines
import LintHost.Proofs.Text.Trimming

namespace LintHost.Masking

open Text

/-! ### The rule -/

/-- Whether a word is one or two marks and a name behind them. -/
def isMarkedName : List Char → Bool
  | '?' :: '?' :: name => name ≠ [] && name.all isNamePart
  | '?' :: name => name ≠ [] && name.all isNamePart
  | _ => false

/-- Whether a word asks for help: it has a name behind marks, or a mark behind something. -/
def asksHelp (word : List Char) : Bool :=
  isMarkedName word || (2 ≤ word.length && word.getLast? == some '?')

/-- Whether a line is one word that asks for help, with blanks around it. -/
def isHelpLine (line : List Char) : Bool :=
  let word := trim line
  word ≠ [] && word.all (fun c => !isBlank c) && asksHelp word

/-- A line as it is masked. -/
def maskLine (line : List Char) : List Char :=
  if line.head? = some '%' then commentSign ++ line
  else if isHelpLine line then line.takeWhile isBlank ++ commentSign ++ line.dropWhile isBlank
  else line

/-! ### Words that ask for help -/

theorem isMarkedName_iff {word : List Char} :
    isMarkedName word = true ↔
      ∃ marks name, word = marks ++ name ∧ Marks marks ∧ SomeOf isNamePart name := by
  have named : ∀ name : List Char,
      (name ≠ [] && name.all isNamePart) = true ↔ SomeOf isNamePart name := by
    simp [SomeOf, AllOf]
  constructor
  · intro h
    unfold isMarkedName at h
    split at h
    · next name => exact ⟨['?', '?'], name, rfl, .inl rfl, (named name).1 h⟩
    · next name _ => exact ⟨['?'], name, rfl, .inr rfl, (named name).1 h⟩
    · cases h
  · rintro ⟨marks, name, rfl, rfl | rfl, hn⟩
    · exact (named name).2 hn
    · -- a name does not start with a mark, so this is not read as two marks
      cases name with
      | nil => exact absurd rfl hn.1
      | cons c name =>
        have hc : c ≠ '?' := by
          rintro rfl
          have hq := hn.2 '?' List.mem_cons_self
          revert hq
          decide
        unfold isMarkedName
        split
        · next e =>
          injection e with _ e
          injection e with e _
          exact absurd e hc
        · next rest _ e =>
          injection e with _ e
          rw [← e]
          exact (named (c :: name)).2 hn
        · next hno => exact absurd rfl (hno (c :: name))

/-- A word without blanks asks for help exactly if it is a help request. -/
theorem asksHelp_iff {word : List Char} (h : ∀ c ∈ word, isBlank c = false) :
    asksHelp word = true ↔ Request word := by
  rw [asksHelp, Bool.or_eq_true, isMarkedName_iff, Bool.and_eq_true, decide_eq_true_eq, beq_iff_eq]
  constructor
  · rintro (⟨marks, name, rfl, hm, hn⟩ | ⟨hlen, hlast⟩)
    · exact .before hm hn
    · obtain ⟨body, rfl⟩ := List.getLast?_eq_some_iff.1 hlast
      refine .behind ⟨?_, fun c hc => ?_⟩ (.inr rfl)
      · rintro rfl
        simp at hlen
      · have hblank := h c (List.mem_append_left _ hc)
        simp [hblank]
  · intro hr
    cases hr with
    | before hm hn => exact .inl ⟨_, _, rfl, hm, hn⟩
    | @behind body marks hb hm =>
      refine .inr ⟨(Request.behind hb hm).two_le_length, ?_⟩
      rcases hm with rfl | rfl
      · simp
      · simp

/-! ### Lines that are such words -/

/-- A line is looked at as a help line exactly if it holds a help request and blanks around it. -/
theorem isHelpLine_iff {line : List Char} : isHelpLine line = true ↔ IsHelp line := by
  unfold isHelpLine
  simp only [Bool.and_eq_true, decide_eq_true_eq, List.all_eq_true, Bool.not_eq_true']
  constructor
  · rintro ⟨⟨-, hw⟩, hask⟩
    obtain ⟨trail, hline, ht⟩ := exists_eq_append_trim line
    exact ⟨line.takeWhile isBlank, trim line, trail, hline, fun c hc => List.mem_takeWhile_imp hc,
      (asksHelp_iff hw).1 hask, ht⟩
  · rintro ⟨lead, request, trail, rfl, hl, hr, ht⟩
    rw [trim_of_word hl hr.ne_nil hr.not_blank ht]
    exact ⟨⟨hr.ne_nil, hr.not_blank⟩, (asksHelp_iff hr.not_blank).2 hr⟩

/-! ### Masking by the rule -/

/-- The rule says what masking makes of a line. -/
theorem MaskedAs.eq_maskLine {line out : List Char} (h : MaskedAs line out) :
    out = maskLine line := by
  cases h with
  | command line => exact (if_pos rfl).symm
  | @request lead request trail hne hl hr ht =>
    have hhead : (lead ++ request ++ trail).head? ≠ some '%' := by
      rw [List.head?_append_of_ne_nil _ fun e => hr.ne_nil (List.append_eq_nil_iff.1 e).2]
      exact hne
    have hhelp : isHelpLine (lead ++ request ++ trail) = true :=
      isHelpLine_iff.2 ⟨lead, request, trail, rfl, hl, hr, ht⟩
    rw [maskLine, if_neg hhead, if_pos hhelp, List.append_assoc lead request,
      List.takeWhile_append_of_pos hl, List.dropWhile_append_of_pos hl]
    -- the request starts with something that is no blank
    cases request with
    | nil => exact absurd rfl hr.ne_nil
    | cons c request =>
      have hc : ¬isBlank c = true := by simp [hr.not_blank c List.mem_cons_self]
      rw [List.cons_append, List.takeWhile_cons_of_neg hc, List.dropWhile_cons_of_neg hc]
      simp
  | plain hne hno =>
    rw [maskLine, if_neg hne, if_neg fun h => hno (isHelpLine_iff.1 h)]

/-- The lines of a masked text are the masked lines. -/
theorem splitOn_mask (s : List Char) :
    splitOn '\n' (mask s) = (splitOn '\n' s).map maskLine := by
  have h : List.Forall₂ (fun line out => out = maskLine line) (splitOn '\n' s)
      (splitOn '\n' (mask s)) := (forall₂_mask s).imp fun _ _ h => h.eq_maskLine
  have hsame : List.Forall₂ Eq (splitOn '\n' (mask s)) ((splitOn '\n' s).map maskLine) :=
    List.forall₂_map_right_iff.2 h.flip
  exact List.forall₂_eq_eq_eq ▸ hsame

/-- A text is known by its parts. -/
theorem eq_of_splitOn_eq {a b : List Char} (h : splitOn '\n' a = splitOn '\n' b) : a = b := by
  rw [← joinWith_splitOn '\n' a, h, joinWith_splitOn]

/-- **Masking works line by line, each line by the rule.** -/
theorem masks_line_by_line (text : String) :
    prepare text true = ⟨placeholders ++ String.ofList
      (joinWith ['\n'] ((splitOn '\n' text.toList).map maskLine)), 1⟩ ∧
    ∀ a b : List Char, mask (a ++ '\n' :: b) = mask a ++ '\n' :: mask b := by
  constructor
  · rw [← splitOn_mask, joinWith_splitOn]
    rfl
  · intro a b
    apply eq_of_splitOn_eq
    rw [splitOn_mask, splitOn_append_cons, splitOn_append_cons, List.map_append, splitOn_mask,
      splitOn_mask]

/-- What looks like a request is one only if it is all that the line holds; a command is masked
whatever follows on its line. -/
example : (["%x?", " np? ", "??", "a b?", "?np.b", "?n-p", "a?\rb?"].map fun line =>
    String.ofList (maskLine line.toList))
    = ["# %x?", " # np? ", "# ??", "a b?", "# ?np.b", "?n-p", "a?\rb?"] := by
  decide +kernel

end LintHost.Masking
