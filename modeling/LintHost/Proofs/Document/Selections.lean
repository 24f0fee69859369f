/-
LintHost/Proofs/Document/Selections.lean

Formatting some lines of a document.  A range of lines cuts a text into three parts
(`Selection.ofRange`).  It selects no line exactly if it starts behind the last line or ends
before it starts (`lines_ofRange_eq_nil_iff`), and one that reaches past the end selects what
the one to the last line does (`ofRange_eq`).  What the pass over the lines finds are the bytes
of the selected ones (`span?_eq`), which start and stop between two characters, so that the
text is cut there (`ofSpan_span?`).

Main result: formatting some lines of a document asks for one run on exactly these lines and
puts its output in their place, or leaves the document alone (`formatLines_splices`).
-/
import LintHost.Document.Format

namespace LintHost

namespace Text

theorem ne_nil_of_mem_consFirst {α : Type} {c : α} {pieces : List (List α)}
    (hp : ∀ piece ∈ pieces, piece ≠ []) {piece : List α} (h : piece ∈ consFirst c pieces) :
    piece ≠ [] := by
  cases pieces with
  | nil => simp_all [consFirst]
  | cons first more =>
    rcases List.mem_cons.1 h with rfl | h
    · simp
    · exact hp piece (List.mem_cons_of_mem first h)

/-- No line is empty. -/
theorem ne_nil_of_mem_newlineLines {s line : List Char} (h : line ∈ newlineLines s) :
    line ≠ [] := by
  induction s generalizing line with
  | nil => cases h
  | cons c rest ih =>
    rw [newlineLines] at h
    split at h
    · rcases List.mem_cons.1 h with rfl | h
      · simp
      · exact ih h
    · exact ne_nil_of_mem_consFirst (fun _ hm => ih hm) h

/-- Some lines in a row hold no character exactly if there are none. -/
theorem flatten_lines_eq_nil_iff (s : List Char) (first stop : Nat) :
    (((newlineLines s).take stop).drop first).flatten = [] ↔
      (newlineLines s).length ≤ first ∨ stop ≤ first := by
  have hlines : ∀ line ∈ ((newlineLines s).take stop).drop first, line ≠ [] := fun _ h =>
    ne_nil_of_mem_newlineLines (List.mem_of_mem_take (List.mem_of_mem_drop h))
  have hlength : (((newlineLines s).take stop).drop first).length
      = min stop (newlineLines s).length - first := by
    rw [List.length_drop, List.length_take]
  cases h : ((newlineLines s).take stop).drop first with
  | nil =>
    rw [h, List.length_nil] at hlength
    simp only [List.flatten_nil, true_iff]
    omega
  | cons line rest =>
    rw [h, List.length_cons] at hlength
    have hline : line ≠ [] := hlines line (h ▸ List.mem_cons_self)
    simp only [List.flatten_cons, List.append_eq_nil_iff, hline, false_and, false_iff]
    omega

/-! ### Bytes -/

theorem encode_append (a b : List Char) : encode (a ++ b) = encode a ++ encode b :=
  List.flatMap_append

/-- A text that is not empty has bytes. -/
theorem length_encode_pos {s : List Char} (h : s ≠ []) : 0 < (encode s).length := by
  obtain ⟨c, rest, rfl⟩ := List.exists_cons_of_ne_nil h
  rw [encode, List.flatMap_cons, List.length_append]
  exact Nat.add_pos_left (List.length_pos_iff.2 String.utf8EncodeChar_ne_nil) _

theorem utf8ByteSize_ofList (s : List Char) :
    (String.ofList s).utf8ByteSize = (encode s).length := by
  rw [← String.size_toByteArray, String.toByteArray_ofList, List.utf8Encode, encode]
  simp

/-- Behind some first characters of a text there is a boundary between two characters. -/
theorem isValid_of_append {text : String} {front : List Char} (back : List Char)
    (h : front ++ back = text.toList) : (⟨(encode front).length⟩ : String.Pos.Raw).IsValid text := by
  rw [String.Pos.Raw.isValid_iff_exists_take_toList]
  refine ⟨front.length, ?_⟩
  rw [← h, List.take_left, utf8ByteSize_ofList]

/-- The bytes of a text in three parts, cut where the parts meet. -/
theorem cut_encode {text front middle back : List Char} (h : front ++ middle ++ back = text) :
    (encode text).take (encode front).length = encode front ∧
      ((encode text).take (encode (front ++ middle)).length).drop (encode front).length
        = encode middle ∧
      (encode text).drop (encode (front ++ middle)).length = encode back := by
  refine ⟨?_, ?_, ?_⟩
  · rw [← h, List.append_assoc, encode_append, List.take_left]
  · rw [← h, encode_append (front ++ middle), List.take_left, encode_append, List.drop_left]
  · rw [← h, encode_append (front ++ middle), List.drop_left]

/-- The number of bytes that write some lines. -/
def lineBytes (lines : List (List Char)) : Nat :=
  (encode lines.flatten).length

theorem lineBytes_append (first second : List (List Char)) :
    lineBytes (first ++ second) = lineBytes first + lineBytes second := by
  simp [lineBytes, encode]

theorem lineBytes_cons (line : List Char) (lines : List (List Char)) :
    lineBytes (line :: lines) = (encode line).length + lineBytes lines := by
  simp [lineBytes, encode]

end Text

open Text

namespace LineRange

/-! ### The bytes of a range of lines -/

/-- **What a pass finds**: the range starts behind the lines in front of it, if the pass comes to
it, and stops behind the last line that is looked at. -/
theorem pass_eq (r : LineRange) (index offset : Nat) (start stop : Option Nat)
    (lines : List (List Char)) :
    r.pass index offset start stop lines =
      let seen := lines.take (r.last + 1 - index)
      (if index ≤ r.first ∧ r.first - index < seen.length
        then some (offset + lineBytes (seen.take (r.first - index))) else start,
        if seen = [] then stop else some (offset + lineBytes seen)) := by
  induction lines generalizing index offset start stop with
  | nil => simp [pass]
  | cons line rest ih =>
    rw [pass]
    split
    · next h => simp [show r.last + 1 - index = 0 by omega]
    · next h =>
      -- the line is looked at, and as many behind it as the pass that goes on looks at
      have hmore : r.last + 1 - index = (r.last + 1 - (index + 1)) + 1 := by omega
      rw [ih, hmore, List.take_succ_cons]
      dsimp only
      generalize rest.take (r.last + 1 - (index + 1)) = seen
      -- where the range starts depends on which side of its first line this one is; where it
      -- stops, on whether this line is the last that is looked at
      refine Prod.ext ?_ ?_
      · dsimp only
        rw [List.length_cons]
        rcases Nat.lt_trichotomy index r.first with hlt | rfl | hgt
        · have hnext : r.first - index = (r.first - (index + 1)) + 1 := by omega
          simp only [hnext, Nat.ne_of_lt hlt, if_false, List.take_succ_cons, Nat.succ_le_of_lt hlt,
            Nat.le_of_lt hlt, true_and, Nat.add_lt_add_iff_right, Nat.add_assoc,
            lineBytes_cons line (List.take _ _)]
        · simp only [Nat.not_succ_le_self, Nat.le_refl, Nat.sub_self, Nat.succ_pos, false_and,
            true_and, if_true, if_false, List.take_zero]
          rfl
        · simp [Nat.not_le_of_gt hgt, Nat.ne_of_gt hgt, Nat.not_le_of_gt (Nat.lt_succ_of_lt hgt)]
      · rw [if_neg (List.cons_ne_nil line seen), lineBytes_cons line seen]
        by_cases hnil : seen = []
        · simp [hnil, lineBytes, encode]
        · simp [hnil, Nat.add_assoc]

/-- **The bytes of a range of lines** are those behind the lines before it, up to the end of its last
line; there are none if it starts behind the last line or ends before it starts. -/
theorem span?_eq (r : LineRange) (text : List Char) :
    r.span? text =
      if (newlineLines text).length ≤ r.first ∨ r.last < r.first then none
      else some (lineBytes ((newlineLines text).take r.first),
        lineBytes ((newlineLines text).take (r.last + 1))) := by
  have hparts := lineBytes_append (((newlineLines text).take (r.last + 1)).take r.first)
    (((newlineLines text).take (r.last + 1)).drop r.first)
  rw [List.take_append_drop, List.take_take] at hparts
  rw [span?, pass_eq]
  simp only [Nat.sub_zero, Nat.zero_le, true_and, Nat.zero_add, List.length_take, List.take_take]
  by_cases h : (newlineLines text).length ≤ r.first ∨ r.last < r.first
  · rw [if_pos h, if_neg (by omega)]
  · -- the lines of the range have bytes, so that its end lies behind its start
    have hpos := length_encode_pos (mt (flatten_lines_eq_nil_iff text r.first (r.last + 1)).1 h)
    rw [← lineBytes] at hpos
    have hseen : (newlineLines text).take (r.last + 1) ≠ [] := by
      rw [← List.length_pos_iff, List.length_take]
      omega
    have hfirst : min r.first (r.last + 1) = r.first := by omega
    rw [hfirst] at hparts ⊢
    rw [if_neg h, if_pos (by omega), if_neg hseen]
    exact if_pos (by omega)

end LineRange

namespace Document

open Analyzer

/-- The parts of a text that a range of lines makes. -/
def Selection.ofRange (r : LineRange) (text : List Char) : Selection :=
  let all := newlineLines text
  ⟨(all.take r.first).flatten, ((all.take (r.last + 1)).drop r.first).flatten,
    (all.drop (r.last + 1)).flatten⟩

/-- The parts of a range whose lines are in order are the text. -/
theorem Selection.flatten {r : LineRange} (h : r.first ≤ r.last) (text : List Char) :
    (ofRange r text).before ++ (ofRange r text).lines ++ (ofRange r text).after = text := by
  have key (all : List (List Char)) :
      all.take r.first ++ (all.take (r.last + 1)).drop r.first ++ all.drop (r.last + 1)
        = all := by
    have : all.take r.first = (all.take (r.last + 1)).take r.first := by
      rw [List.take_take, Nat.min_eq_left (by omega)]
    rw [this, List.take_append_drop, List.take_append_drop]
  simp only [ofRange, ← List.flatten_append, key, flatten_newlineLines]

variable {r : LineRange} {text : List Char}

/-- A selection holds no line exactly if it starts behind the last line or ends before it starts. -/
theorem lines_ofRange_eq_nil_iff : (Selection.ofRange r text).lines = [] ↔
    (newlineLines text).length ≤ r.first ∨ r.last < r.first :=
  flatten_lines_eq_nil_iff text r.first (r.last + 1)

/-- A range that reaches past the end selects what the one to the last line does. -/
theorem ofRange_eq (hfirst : r.first < (newlineLines text).length) :
    Selection.ofRange r text =
      let all := newlineLines text
      let last := min r.last (all.length - 1)
      ⟨(all.take r.first).flatten, (all.extract r.first (last + 1)).flatten,
        (all.drop (last + 1)).flatten⟩ := by
  have hn : 0 < (newlineLines text).length := by omega
  rw [Selection.ofRange]
  generalize newlineLines text = all at *
  dsimp only
  -- beyond the last line there is nothing to take or to drop
  have htake : all.take (r.last + 1) = all.take (min r.last (all.length - 1) + 1) := by
    rw [List.take_eq_take_iff]
    omega
  have hdrop : all.drop (r.last + 1) = all.drop (min r.last (all.length - 1) + 1) := by
    rcases Nat.le_total r.last (all.length - 1) with h | h
    · rw [Nat.min_eq_left h]
    · rw [Nat.min_eq_right h, List.drop_eq_nil_of_le (by omega), List.drop_eq_nil_of_le (by omega)]
  rw [htake, hdrop, List.drop_take]

/-- What a range selects of a text that reaches to its first line, with lines counted from one. -/
theorem ofRange_pred {a b : Nat} (hpos : 1 ≤ a) (hle : a ≤ b)
    (hlen : a ≤ (newlineLines text).length) :
    let all := newlineLines text
    let parts : Selection := ⟨(all.take (a - 1)).flatten,
      (all.extract (a - 1) (min b all.length)).flatten, (all.drop (min b all.length)).flatten⟩
    Selection.ofRange ⟨a - 1, b - 1⟩ text = parts ∧ parts.lines ≠ [] ∧
      parts.before ++ parts.lines ++ parts.after = text := by
  intro all parts
  have hlast : min (b - 1) (all.length - 1) + 1 = min b all.length := by
    change a ≤ all.length at hlen
    omega
  have hparts : Selection.ofRange ⟨a - 1, b - 1⟩ text = parts := by
    rw [ofRange_eq (Nat.sub_one_lt_of_le hpos hlen)]
    dsimp only [parts]
    rw [← hlast]
  have horder : LineRange.first ⟨a - 1, b - 1⟩ ≤ LineRange.last ⟨a - 1, b - 1⟩ :=
    Nat.sub_le_sub_right hle 1
  have hnil := @lines_ofRange_eq_nil_iff ⟨a - 1, b - 1⟩ text
  have hjoin := Selection.flatten horder text
  rw [hparts] at hnil hjoin
  refine ⟨hparts, fun heq => ?_, hjoin⟩
  rcases hnil.1 heq with h | h
  · exact absurd (Nat.sub_one_lt_of_le hpos hlen) (Nat.not_lt_of_le h)
  · exact absurd horder (Nat.not_le_of_lt h)

/-- The pass finds the bytes of a selection. -/
theorem span?_ofRange (h : (Selection.ofRange r text).lines ≠ []) :
    let parts := Selection.ofRange r text
    r.span? text
      = some ((encode parts.before).length, (encode (parts.before ++ parts.lines)).length) := by
  intro parts
  have hrange := mt lines_ofRange_eq_nil_iff.2 h
  have hfirst : min r.first (r.last + 1) = r.first := by omega
  -- what stands before the selected lines, and these, are all lines up to the last of them
  have hjoin : parts.before ++ parts.lines = ((newlineLines text).take (r.last + 1)).flatten := by
    show ((newlineLines text).take r.first).flatten
      ++ (((newlineLines text).take (r.last + 1)).drop r.first).flatten = _
    rw [← hfirst, ← List.take_take, ← List.flatten_append, hfirst, List.take_append_drop]
  rw [LineRange.span?_eq, if_neg hrange, hjoin]
  rfl

/-- Where the pass finds something, the text is cut into its parts. -/
theorem ofSpan_span? (h : (Selection.ofRange r text).lines ≠ []) :
    (r.span? text).map (Selection.ofSpan · text) = some (Selection.ofRange r text) := by
  have hrange := mt lines_ofRange_eq_nil_iff.2 h
  have hflat := Selection.flatten (by omega : r.first ≤ r.last) text
  have hspan := span?_ofRange h
  generalize Selection.ofRange r text = parts at *
  rw [show r.span? text = _ from hspan, Option.map_some, Selection.ofSpan, ← hflat, cutAt_append]
  dsimp only
  rw [cutAt_append]

/-! ### Formatting a selection -/

variable {s : Settings} {d : Document} {σ : Type} (analyzer : σ → Invocation → Reply × σ) (start : σ)

/-- Putting a text in place of some lines changes nothing exactly if it is these lines. -/
theorem splice_eq_iff {before lines after : List Char} {text out : String}
    (h : before ++ lines ++ after = text.toList) :
    String.ofList (before ++ out.toList ++ after) = text ↔ out = String.ofList lines := by
  rw [← String.toList_inj, String.toList_ofList, ← h, List.append_left_inj, List.append_right_inj,
    ← String.toList_inj, String.toList_ofList]

/-- An empty selection asks nothing and changes nothing. -/
theorem formatLines_of_nil (h : (Selection.ofRange r d.text.toList).lines = []) :
    d.formatLines s r = .done (.ok false, d) := by
  have hspan : r.span? d.text.toList = none := by
    rw [LineRange.span?_eq, if_pos (lines_ofRange_eq_nil_iff.1 h)]
  rw [formatLines, hspan]
  rfl

/-- A selection of some lines asks for one run, whose output takes their place. -/
theorem formatLines_eq (s : Settings) {parts : Selection}
    (hparts : Selection.ofRange r d.text.toList = parts) (h : parts.lines ≠ []) :
    d.formatLines s r = .ask (.format s d.path (String.ofList parts.lines)) fun reply =>
      .done (match reply with
        | .error failure => (.error failure, d)
        | .ok out =>
          let text := String.ofList (parts.before ++ out.toList ++ parts.after)
          (.ok (text ≠ d.text), { d with text })) := by
  have hne : String.ofList parts.lines ≠ "" := by
    rwa [← String.ofList_nil, Ne, String.ofList_inj]
  have hrange := mt lines_ofRange_eq_nil_iff.2 (hparts ▸ h)
  have hflat := Selection.flatten (by omega : r.first ≤ r.last) d.text.toList
  obtain ⟨span, hspan, hcut⟩ := Option.map_eq_some_iff.1 (ofSpan_span? (hparts ▸ h))
  rw [hparts] at hflat hcut
  rw [formatLines, hspan]
  dsimp only
  rw [hcut, formatted, if_neg hne]
  refine congrArg (Consult.ask _) (funext fun reply => ?_)
  cases reply with
  | error failure => rfl
  | ok out =>
    -- the output changes the text exactly if it is not what it is put in place of
    have hiff := @splice_eq_iff _ _ _ d.text out hflat
    show (if out = String.ofList parts.lines then Consult.done (Except.ok false, d)
      else .done (Except.ok true,
        { d with text := String.ofList (parts.before ++ out.toList ++ parts.after) })) = _
    split
    · next hsame =>
      dsimp only
      rw [hiff.2 hsame, decide_eq_false (not_not_intro rfl)]
    · next hother =>
      dsimp only
      rw [decide_eq_true (mt hiff.1 hother)]

theorem run_formatLines_of_nil (h : (Selection.ofRange r d.text.toList).lines = []) :
    (d.formatLines s r).run analyzer start = ((.ok false, d), [], start) := by
  rw [formatLines_of_nil h]
  rfl

theorem run_formatLines (s : Settings) {parts : Selection}
    (hparts : Selection.ofRange r d.text.toList = parts) (h : parts.lines ≠ []) :
    let call := Invocation.format s d.path (String.ofList parts.lines)
    (d.formatLines s r).run analyzer start
      = ((match (analyzer start call).1 with
          | .error failure => (.error failure, d)
          | .ok out =>
            let text := String.ofList (parts.before ++ out.toList ++ parts.after)
            (.ok (text ≠ d.text), { d with text })), [call], (analyzer start call).2) := by
  rw [formatLines_eq s hparts h]
  rfl

/-- **Formatting some lines puts their formatted form in their place.**  A range that starts behind
the last line, or ends before it starts, asks nothing and changes nothing.  Any other asks for one
run on its lines, as far as there are any: the lines before and after them stay as they are, byte
for byte, a failure changes nothing, and the output of the run stands in place of the lines.  The
result says whether the text is another one. -/
theorem formatLines_splices (s : Settings) (r : LineRange) (d : Document) {σ : Type}
    (analyzer : σ → Invocation → Reply × σ) (start : σ) :
    let all := newlineLines d.text.toList
    let last := min r.last (all.length - 1)
    let before := (all.take r.first).flatten
    let lines := (all.extract r.first (last + 1)).flatten
    let after := (all.drop (last + 1)).flatten
    let call := Invocation.format s d.path (String.ofList lines)
    let outcome := (d.formatLines s r).run analyzer start
    (all.length ≤ r.first ∨ r.last < r.first →
      r.span? d.text.toList = none ∧ outcome = ((.ok false, d), [], start)) ∧
    (r.first < all.length → r.first ≤ r.last →
      before ++ lines ++ after = d.text.toList ∧
      (∃ lo hi, r.span? d.text.toList = some (lo, hi) ∧ lo < hi ∧
        (⟨lo⟩ : String.Pos.Raw).IsValid d.text ∧ (⟨hi⟩ : String.Pos.Raw).IsValid d.text ∧
        (encode d.text.toList).take lo = encode before ∧
        ((encode d.text.toList).take hi).drop lo = encode lines ∧
        (encode d.text.toList).drop hi = encode after) ∧
      call.input = some (String.ofList lines) ∧
      (∀ failure, (analyzer start call).1 = .error failure →
        outcome = ((.error failure, d), [call], (analyzer start call).2)) ∧
      ∀ out, (analyzer start call).1 = .ok out →
        let text := String.ofList (before ++ out.toList ++ after)
        outcome = ((.ok (text ≠ d.text), { d with text }), [call], (analyzer start call).2) ∧
          (text ≠ d.text ↔ out ≠ String.ofList lines)) := by
  intro all last before lines after call outcome
  refine ⟨fun h => ⟨?_, ?_⟩, fun hfirst hle => ?_⟩
  · rw [LineRange.span?_eq, if_pos h]
  · exact run_formatLines_of_nil analyzer start (lines_ofRange_eq_nil_iff.2 h)
  have hparts : Selection.ofRange r d.text.toList = ⟨before, lines, after⟩ := ofRange_eq hfirst
  have hrange : ¬(all.length ≤ r.first ∨ r.last < r.first) := by omega
  have hne : lines ≠ [] := by
    have h := mt lines_ofRange_eq_nil_iff.1 hrange
    rwa [hparts] at h
  have hflat : before ++ lines ++ after = d.text.toList := by
    have h := Selection.flatten hle d.text.toList
    rwa [hparts] at h
  have hrun := run_formatLines analyzer start s hparts hne
  refine ⟨hflat, ?_, rfl, ?_, ?_⟩
  · have hspan : r.span? d.text.toList = _ := span?_ofRange (hparts ▸ hne)
    rw [hparts] at hspan
    have hpos := length_encode_pos hne
    refine ⟨_, _, hspan, ?_, isValid_of_append (lines ++ after) ?_, isValid_of_append after hflat,
      cut_encode hflat⟩
    · show (encode before).length < (encode (before ++ lines)).length
      rw [encode_append, List.length_append]
      omega
    · rw [← hflat, List.append_assoc]
  · intro failure h
    rw [show outcome = _ from hrun, h]
  · intro out h text
    refine ⟨?_, ?_⟩
    · rw [show outcome = _ from hrun, h]
    · exact not_congr (splice_eq_iff hflat)

/-- The last line of a text, up to the greatest number there is, behind a character of two bytes. -/
theorem formatLines_splices_past_end :
    let d : Document := ⟨⟨"a.py"⟩, "é=1\nz=3"⟩
    let r : LineRange := ⟨1, 18446744073709551615⟩
    r.first < (newlineLines d.text.toList).length ∧ r.first ≤ r.last ∧
      r.span? d.text.toList = some (5, 8) ∧
      (d.formatLines {} r).run (fun (_ : Unit) _ => (.ok "z = 3\n", ())) ()
        = ((.ok true, ⟨⟨"a.py"⟩, "é=1\nz = 3\n"⟩), [.format {} ⟨"a.py"⟩ "z=3"], ()) := by
  intro d r
  have hfirst : r.first < (newlineLines d.text.toList).length := by decide +kernel
  have hle : r.first ≤ r.last := by decide
  have hspan : r.span? d.text.toList = some (5, 8) := by decide +kernel
  obtain ⟨-, -, -, -, hok⟩ :=
    (formatLines_splices {} r d (fun (_ : Unit) _ => (.ok "z = 3\n", ())) ()).2 hfirst hle
  have hall : newlineLines d.text.toList = ["é=1\n".toList, "z=3".toList] := by decide +kernel
  have hpath : d.path = ⟨"a.py"⟩ := rfl
  have hchanged : "é=1\nz = 3\n" ≠ d.text := by decide
  refine ⟨hfirst, hle, hspan, (hok "z = 3\n" rfl).1.trans ?_⟩
  simp [hall, hpath, hchanged, r]

end Document

end LintHost
