/-
LintHost/Proofs/Document/Covering.lean

Selections that cover the whole document.  A range that starts at the first line and goes
up to the last one, or past it, selects every character and leaves nothing before it or
behind it (`ofRange_covering`).  Then the two ways to format are one computation
(`formatLines_eq_format`): for a text without lines neither asks anything, and for any other
both ask for one run on the text as it is.

Main result: whatever the analyzer answers, and from whatever state it does so, the two
make the same runs, come to the same result and leave the same text
(`covering_selection_formats_document`).
-/
import LintHost.Proofs.Document.Selections

namespace LintHost.Document

open Analyzer Text

variable {last : Nat} {text : List Char} {s : Settings} {d : Document}

/-- A range from the first line to the last one, or past it, selects all of a text. -/
theorem ofRange_covering (h : (newlineLines text).length ≤ last + 1) :
    Selection.ofRange ⟨0, last⟩ text = ⟨[], text, []⟩ := by
  have htake : (newlineLines text).take (last + 1) = newlineLines text :=
    List.take_of_length_le h
  have hdrop : (newlineLines text).drop (last + 1) = [] := List.drop_eq_nil_of_le h
  show (⟨((newlineLines text).take 0).flatten,
    (((newlineLines text).take (last + 1)).drop 0).flatten,
    ((newlineLines text).drop (last + 1)).flatten⟩ : Selection) = ⟨[], text, []⟩
  rw [htake, hdrop, List.take_zero, List.drop_zero, flatten_newlineLines]
  rfl

/-- An empty document asks nothing and stays as it is. -/
theorem format_of_empty (h : d.text = "") : d.format s = .done (.ok false, d) := by
  obtain ⟨path, text⟩ := d
  obtain rfl : text = "" := h
  rfl

/-- Formatting any other document asks for one run on its text, whose output becomes the text. -/
theorem format_of_ne_empty (h : d.text ≠ "") :
    d.format s = .ask (.format s d.path d.text) fun
      | .error failure => .done (.error failure, d)
      | .ok out => .done (.ok (out ≠ d.text), { d with text := out }) := by
  rw [format, formatted, if_neg h]
  rfl

/-- **Formatting a selection that covers the document is formatting the document.** -/
theorem formatLines_eq_format (h : (newlineLines d.text.toList).length ≤ last + 1) :
    d.formatLines s ⟨0, last⟩ = d.format s := by
  have hparts : Selection.ofRange ⟨0, last⟩ d.text.toList = _ := ofRange_covering h
  by_cases hempty : d.text = ""
  · rw [format_of_empty hempty]
    refine formatLines_of_nil ?_
    rw [hparts, hempty]
    rfl
  · have hchars : d.text.toList ≠ [] := by
      rwa [Ne, ← String.toList_empty, String.toList_inj]
    rw [format_of_ne_empty hempty, formatLines_eq s hparts hchars]
    dsimp only
    rw [String.ofList_toList]
    congr 1
    funext reply
    cases reply with
    | error failure => rfl
    | ok out =>
      -- nothing stands before or behind the output
      simp

/-- **A selection of every line is formatted as the document is**: with the same runs of the
analyzer, the same result, change or failure, and the same text behind it.  A text without lines is
left alone without a run; for any other there is one run on the text, and its output is the text
afterwards. -/
theorem covering_selection_formats_document (s : Settings) (d : Document) (last : Nat)
    (h : (newlineLines d.text.toList).length ≤ last + 1) {σ : Type}
    (analyzer : σ → Invocation → Reply × σ) (start : σ) :
    let outcome := (d.format s).run analyzer start
    let call := Invocation.format s d.path d.text
    (d.formatLines s ⟨0, last⟩).run analyzer start = outcome ∧
      (d.text = "" → outcome = ((.ok false, d), [], start)) ∧
      (d.text ≠ "" → outcome.2 = ([call], (analyzer start call).2) ∧
        (∀ failure, (analyzer start call).1 = .error failure → outcome.1 = (.error failure, d)) ∧
        ∀ out, (analyzer start call).1 = .ok out →
          outcome.1 = (.ok (out ≠ d.text), { d with text := out })) := by
  intro outcome call
  refine ⟨?_, fun hempty => ?_, fun hne => ?_⟩
  · rw [formatLines_eq_format h]
  · show (d.format s).run analyzer start = _
    rw [format_of_empty hempty]
    rfl
  · have hrun : outcome = (match (analyzer start call).1 with
        | .error failure => (.error failure, d)
        | .ok out => (.ok (out ≠ d.text), { d with text := out }), [call],
          (analyzer start call).2) := by
      show (d.format s).run analyzer start = _
      rw [format_of_ne_empty hne, Consult.run]
      rcases analyzer start call with ⟨failure | out, after⟩
      · rfl
      · rfl
    refine ⟨?_, fun failure hreply => ?_, fun out hreply => ?_⟩
    · rw [hrun]
    · rw [hrun, hreply]
    · rw [hrun, hreply]

/-- A text whose last line has no line feed, up to the greatest number there is. -/
theorem covering_selection_formats_document_past_end :
    let d : Document := ⟨⟨"a.py"⟩, "x=1\ny=2"⟩
    let last := 18446744073709551615
    (newlineLines d.text.toList).length ≤ last + 1 ∧
      (d.formatLines {} ⟨0, last⟩).run (fun (_ : Unit) _ => (.ok "x = 1\ny = 2\n", ())) ()
        = ((.ok true, ⟨⟨"a.py"⟩, "x = 1\ny = 2\n"⟩), [.format {} ⟨"a.py"⟩ "x=1\ny=2"], ()) := by
  intro d last
  have hlast : (newlineLines d.text.toList).length ≤ last + 1 := by decide +kernel
  obtain ⟨heq, -, hone⟩ := covering_selection_formats_document {} d last hlast
    (fun (_ : Unit) _ => (.ok "x = 1\ny = 2\n", ())) ()
  obtain ⟨hcalls, -, hok⟩ := hone (by decide)
  refine ⟨hlast, heq.trans (Prod.ext ((hok _ rfl).trans ?_) hcalls)⟩
  have hchanged : "x = 1\ny = 2\n" ≠ d.text := by decide
  simp [d, hchanged]

end LintHost.Document
