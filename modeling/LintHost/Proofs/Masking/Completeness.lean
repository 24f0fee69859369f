/-
LintHost/Proofs/Masking/Completeness.lean

What is left to mask in a text that has been masked: nothing.  A line with the sign in it
starts no command and is no help request (`Marked.settled`), and a line that masking
leaves alone is neither from the start; so a masked line is masked into itself
(`mask_mask`).  A masked line without the sign that was put into it is the line
(`withoutSign_maskLine`).

Main result: no line of the text for the analyzer starts a command or is a help request, a
second pass leaves the text as it is, and the text without the signs that were put in is
the user's (`masking_leaves_nothing`).
-/
import LintHost.Proofs.Document.Columns

namespace LintHost.Masking

open Text

/-! ### Lines with nothing to mask -/

/-- A line is a help request with blanks around it exactly if it is one when it is trimmed. -/
theorem isHelp_iff_request_trim {line : List Char} : IsHelp line ↔ Request (trim line) := by
  constructor
  · rintro ⟨lead, request, trail, rfl, hl, hr, ht⟩
    rw [trim_of_word hl hr.ne_nil hr.not_blank ht]
    exact hr
  · intro hr
    obtain ⟨trail, hline, ht⟩ := exists_eq_append_trim line
    exact ⟨line.takeWhile isBlank, trim line, trail, hline,
      fun c hc => List.mem_takeWhile_imp hc, hr, ht⟩

/-- Whether a line neither starts a command nor is a help request. -/
structure Settled (line : List Char) : Prop where
  command : line.head? ≠ some '%'
  help : ¬ IsHelp line

/-- The rule keeps a line in which there is nothing to mask. -/
theorem Settled.maskLine_eq {line : List Char} (h : Settled line) : maskLine line = line := by
  rw [maskLine, if_neg h.command, if_neg fun hhelp => h.help (isHelpLine_iff.1 hhelp)]

/-- In a line with the sign there is nothing to mask. -/
theorem Marked.settled {line out : List Char} (h : Marked line out) : Settled out := by
  obtain ⟨hblanks, -⟩ := h
  next blanks c rest =>
  constructor
  · intro hhead
    cases blanks with
    | nil => cases hhead
    | cons b blanks =>
      obtain rfl : b = '%' := Option.some.inj hhead
      have hb := hblanks '%' List.mem_cons_self
      cases hb
  · -- the blanks before the sign make no difference
    rw [List.append_assoc]
    induction blanks with
    | nil => exact not_isHelp_signed (c :: rest)
    | cons b blanks ih =>
      intro hhelp
      exact ih (fun d hd => hblanks d (List.mem_cons_of_mem b hd))
        (hhelp.of_cons (hblanks b List.mem_cons_self))

/-- In a masked line there is nothing to mask. -/
theorem MaskedAs.settled {line out : List Char} (h : MaskedAs line out) : Settled out := by
  rcases h.plain_or_marked with ⟨rfl, hcommand, hhelp⟩ | hmarked
  · exact ⟨hcommand, hhelp⟩
  · exact hmarked.settled

/-- In the lines of a masked text there is nothing to mask. -/
theorem settled_of_mem_mask {s line : List Char} (h : line ∈ splitOn '\n' (mask s)) :
    Settled line := by
  obtain ⟨plain, -, hmasked⟩ := exists_of_mem_right (forall₂_mask s) line h
  exact hmasked.settled

/-- **A second pass changes nothing.** -/
theorem mask_mask (s : List Char) : mask (mask s) = mask s := by
  apply eq_of_splitOn_eq
  have hkept : ∀ line ∈ splitOn '\n' (mask s), maskLine line = line := fun line h =>
    (settled_of_mem_mask h).maskLine_eq
  rw [splitOn_mask, List.map_congr_left hkept, List.map_id']

/-! ### Lines without the sign -/

/-- A line without the sign that stands at a given place of it. -/
def withoutSign (line : List Char) : Option Nat → List Char
  | none => line
  | some front => line.take front ++ line.drop (front + commentSign.length)

/-- The sign stands where it is said to be. -/
theorem take_drop_maskLine {line : List Char} {front : Nat} (h : signAt? line = some front) :
    ((maskLine line).drop front).take commentSign.length = commentSign := by
  have hlen := le_length_of_signAt? h
  rw [maskLine_eq, h]
  dsimp only
  rw [List.append_assoc, List.drop_left' (List.length_take_of_le hlen), List.take_left]

/-- A masked line without its sign is the line. -/
theorem withoutSign_maskLine (line : List Char) :
    withoutSign (maskLine line) (signAt? line) = line := by
  rw [maskLine_eq]
  cases h : signAt? line with
  | none => rfl
  | some front =>
    have hfront : (line.take front).length = front :=
      List.length_take_of_le (le_length_of_signAt? h)
    have hbehind : (line.take front ++ commentSign).length = front + commentSign.length := by
      rw [List.length_append, hfront]
    dsimp only [withoutSign]
    rw [List.drop_left' hbehind, List.append_assoc, List.take_left' hfront,
      List.take_append_drop]

/-- A text without the signs that stand at given places of its lines. -/
def withoutSigns (s : List Char) (places : List (Option Nat)) : List Char :=
  joinWith ['\n'] (List.zipWith withoutSign (splitOn '\n' s) places)

/-- **A masked text without its signs is the text.** -/
theorem withoutSigns_mask (s : List Char) :
    withoutSigns (mask s) ((splitOn '\n' s).map signAt?) = s := by
  rw [withoutSigns, splitOn_mask, List.zipWith_map, List.zipWith_self]
  simp only [withoutSign_maskLine, List.map_id']
  exact joinWith_splitOn '\n' s

/-! ### The text for the analyzer -/

/-- The text for the analyzer without the placeholders before it. -/
def body (text : String) : String :=
  String.ofList ((prepare text true).text.toList.drop placeholders.length)

theorem toList_body (text : String) : (body text).toList = mask text.toList := by
  have hfront : placeholders.toList.length = placeholders.length := String.length_toList
  rw [body, String.toList_ofList, prepare, if_pos rfl]
  dsimp only
  rw [String.toList_append, String.toList_ofList, List.drop_left' hfront]

/-- **Masking leaves nothing to mask, and takes nothing away.**  In front of the masked text stand
the placeholders.  None of its lines starts with `%`, and none is, when it is trimmed, a help
request.  Masking it again changes nothing.  In each line of the user's text for which `signAt?`
tells a place, the sign stands there, and the masked text without these signs is the user's text. -/
theorem masking_leaves_nothing (text : String) :
    (prepare text true).text = placeholders ++ body text ∧
      (∀ line ∈ splitOn '\n' (body text).toList,
        line.head? ≠ some '%' ∧ ¬ Request (trim line)) ∧
      body (body text) = body text ∧
      List.Forall₂ (fun line out => ∀ front, signAt? line = some front →
          (out.drop front).take commentSign.length = commentSign)
        (splitOn '\n' text.toList) (splitOn '\n' (body text).toList) ∧
      withoutSigns (body text).toList ((splitOn '\n' text.toList).map signAt?) = text.toList := by
  refine ⟨?_, fun line h => ?_, ?_, ?_, ?_⟩
  · rw [← String.toList_inj, String.toList_append, toList_body, prepare, if_pos rfl]
    dsimp only
    rw [String.toList_append, String.toList_ofList]
  · rw [toList_body] at h
    have hsettled := settled_of_mem_mask h
    exact ⟨hsettled.command, fun hr => hsettled.help (isHelp_iff_request_trim.2 hr)⟩
  · rw [← String.toList_inj, toList_body, toList_body, mask_mask]
  · rw [toList_body, splitOn_mask, List.forall₂_map_right_iff]
    exact List.forall₂_same.2 fun line _ front h => take_drop_maskLine h
  · rw [toList_body, withoutSigns_mask]

/-- A command, and help requests with lines of blanks between them, the last one behind blanks. -/
theorem masking_leaves_nothing_of_neighbours :
    let text := "%a?\n?b\n \n\n  c??\t"
    (body text).toList = "# %a?\n# ?b\n \n\n  # c??\t".toList ∧
      "  # c??\t".toList ∈ splitOn '\n' (body text).toList ∧
      ¬ Request (trim "  # c??\t".toList) ∧ body (body text) = body text ∧
      withoutSigns (body text).toList [some 0, some 0, none, none, some 2] = text.toList := by
  intro text
  have hbody : (body text).toList = "# %a?\n# ?b\n \n\n  # c??\t".toList := by decide +kernel
  have hline : "  # c??\t".toList ∈ splitOn '\n' (body text).toList := by
    rw [hbody]
    decide +kernel
  have hplaces : (splitOn '\n' text.toList).map signAt?
      = [some 0, some 0, none, none, some 2] := by decide +kernel
  obtain ⟨-, hlines, hagain, -, hback⟩ := masking_leaves_nothing text
  rw [hplaces] at hback
  exact ⟨hbody, hline, (hlines _ hline).2, hagain, hback⟩

end LintHost.Masking
