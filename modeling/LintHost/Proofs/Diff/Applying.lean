/-
LintHost/Proofs/Diff/Applying.lean

Differences applied.  A hunk shows the stretches of both texts that its edits lead through
(`lines_hunk`), so hunks that lie apart turn the one text into the other
(`rewrite?_spaced`), by their signs and the first number of each title.

The other numbers of a title are what the first and the last edit of its hunk say of
themselves, and an edit that was moved over another one may not say where it stands.  They
are right if all edits do (`endsRight_of_located`), and also where hunks begin and end in
kept lines, which always do (`endsRight_of_framed`).

Main results: the difference of two texts turns the one into the other
(`patched?_unified`), and under one of these conditions all its numbers are right
(`strictlyPatched?_unified`).  Without them they need not be (`wrong_title`).
-/
import LintHost.Proofs.Diff.Patch

namespace LintHost.Diff

variable {old new : List TextLine} {P : Nat → Nat → Edit → Prop} {i j p q : Nat} {e : Edit}
  {hunk : List Edit} {shown : List (List Edit)}

/-! ### The lines of a hunk -/

theorem oldLines_append (r s : List Row) : oldLines (r ++ s) = oldLines r ++ oldLines s := by
  rw [oldLines, List.filter_append, List.map_append]
  rfl

theorem newLines_append (r s : List Row) : newLines (r ++ s) = newLines r ++ newLines s := by
  rw [newLines, List.filter_append, List.map_append]
  rfl

theorem oldLines_signed (sign : Sign) (lines : List TextLine) :
    oldLines (lines.map fun line => (sign, line)) = if sign = .added then [] else lines := by
  induction lines with
  | nil => cases sign <;> rfl
  | cons line lines ih => cases sign <;> simp_all [oldLines]

theorem newLines_signed (sign : Sign) (lines : List TextLine) :
    newLines (lines.map fun line => (sign, line)) = if sign = .removed then [] else lines := by
  induction lines with
  | nil => cases sign <;> rfl
  | cons line lines ih => cases sign <;> simp_all [newLines]

/-- An edit shows the stretches that it is about. -/
theorem lines_editRows (h : Stands old new i j e) :
    oldLines (editRows old new e) = stretch old i e.oldCount ∧
      newLines (editRows old new e) = stretch new j e.newCount := by
  cases h with
  | plain h =>
    cases h with
    | keep _ _ _ same => exact ⟨oldLines_signed .kept _, (newLines_signed .kept _).trans same⟩
    | delete => exact ⟨oldLines_signed .removed _, newLines_signed .removed _⟩
    | insert => exact ⟨oldLines_signed .added _, newLines_signed .added _⟩
  | replace =>
    constructor
    · exact (oldLines_append _ _).trans (by rw [oldLines_signed, oldLines_signed]; simp)
    · exact (newLines_append _ _).trans (by rw [newLines_signed, newLines_signed]; simp)

/-- **A hunk shows a stretch of each text.** -/
theorem lines_hunk (hP : Cuttable old new P) (h : Along P i j hunk p q) (ho : i ≤ old.length)
    (hn : j ≤ new.length) : ∃ m n, p = i + m ∧ q = j + n ∧ p ≤ old.length ∧ q ≤ new.length ∧
      oldLines (hunk.flatMap (editRows old new)) = stretch old i m ∧
      newLines (hunk.flatMap (editRows old new)) = stretch new j n := by
  induction hunk generalizing i j with
  | nil =>
    obtain ⟨rfl, rfl⟩ := h
    exact ⟨0, 0, rfl, rfl, ho, hn, rfl, rfl⟩
  | cons e hunk ih =>
    have hstands := hP.stands h.1
    obtain ⟨holds, hnews⟩ := lines_editRows hstands
    have hle : i + e.oldCount ≤ old.length ∧ j + e.newCount ≤ new.length := by
      cases hstands with
      | plain h =>
        cases h with
        | keep _ hoe hne => exact ⟨hoe, hne⟩
        | delete _ hoe => exact ⟨hoe, hn⟩
        | insert _ hne => exact ⟨ho, hne⟩
      | replace _ _ hoe hne => exact ⟨hoe, hne⟩
    obtain ⟨m, n, rfl, rfl, hp, hq, ih₁, ih₂⟩ := ih h.2 hle.1 hle.2
    refine ⟨e.oldCount + m, e.newCount + n, Nat.add_assoc .., Nat.add_assoc .., hp, hq, ?_, ?_⟩
    · rw [List.flatMap_cons, oldLines_append, holds, ih₁, stretch_add]
    · rw [List.flatMap_cons, newLines_append, hnews, ih₂, stretch_add]

/-! ### Rewriting -/

theorem oldStart_ofEdits (hne : hunk ≠ []) (hplaced : ∀ e ∈ hunk.head?, e.old = i) :
    (Hunk.ofEdits old new hunk).title.oldStart = i := by
  obtain ⟨e, es, rfl⟩ := List.exists_cons_of_ne_nil hne
  exact hplaced e rfl

/-- **Hunks that lie apart rewrite one text into the other.** -/
theorem rewrite?_spaced (hP : Cuttable old new P) (h : Spaced old new P i j shown) :
    rewrite? i (old.drop i) (shown.map (Hunk.ofEdits old new)) = some (new.drop j) := by
  induction h with
  | rest same => exact congrArg some same
  | @hunk i j n p q hunk shown ho hn same ne placed along rest ih =>
    obtain ⟨k, m, rfl, rfl, hp, hq, holds, hnews⟩ := lines_hunk hP along ho hn
    have hrows : (Hunk.ofEdits old new hunk).rows = hunk.flatMap (editRows old new) := rfl
    have hk : (stretch old (i + n) k).length = k := length_stretch hp
    have hpre : stretch old (i + n) k <+: old.drop (i + n) := List.take_prefix _ _
    have hsub : i + n - i = n := Nat.add_sub_cancel_left i n
    have hnk : i + (n + k) = i + n + k := (Nat.add_assoc ..).symm
    have hlen : n ≤ (old.drop i).length := by
      rw [List.length_drop]
      omega
    have hfront : (old.drop i).take n = stretch new j n := same
    rw [List.map_cons, rewrite?]
    simp only [oldStart_ofEdits ne placed, hrows, holds, hnews, hsub, hk, List.drop_drop, hnk]
    rw [if_pos ⟨by omega, hlen, hpre⟩, ih, Option.map_some, hfront, List.append_assoc,
      stretch_append_drop, stretch_append_drop]

/-! ### Titles -/

/-- Whether the edits at both ends of a hunk say where they stand. -/
structure EndsRight (p q : Nat) (j : Nat) (hunk : List Edit) : Prop where
  start : ∀ e ∈ hunk.head?, e.new = j
  stop : ∀ e ∈ hunk.getLast?, e.old + e.oldCount = p ∧ e.new + e.newCount = q

theorem titlesRight_of_endsRight (hP : Cuttable old new P) (h : Spaced old new P i j shown)
    (hends : ∀ hunk ∈ shown, ∀ {i j p q}, Along P i j hunk p q → EndsRight p q j hunk) :
    TitlesRight i j (shown.map (Hunk.ofEdits old new)) := by
  induction h with
  | rest => trivial
  | @hunk i j n p q hunk shown ho hn same ne placed along rest ih =>
    obtain ⟨hstart, hstop⟩ := hends hunk List.mem_cons_self along
    obtain ⟨k, m, rfl, rfl, hp, hq, holds, hnews⟩ := lines_hunk hP along ho hn
    have htitle : (Hunk.ofEdits old new hunk).title = ⟨i + n, k, j + n, m⟩ := by
      have hfirst := hunk.head?_eq_some_head ne
      have hlast := hunk.getLast?_eq_some_getLast ne
      obtain ⟨hold, hnew⟩ := hstop _ hlast
      unfold Hunk.ofEdits titleOf
      simp only [hfirst, hlast, Option.getD_some, hold, hnew, placed _ hfirst, hstart _ hfirst]
      simp
    have hrows : (Hunk.ofEdits old new hunk).rows = hunk.flatMap (editRows old new) := rfl
    rw [List.map_cons, TitlesRight, htitle, hrows, holds, hnews, length_stretch hp,
      length_stretch hq]
    have hrest := ih fun h hh => hends h (List.mem_cons_of_mem _ hh)
    exact ⟨rfl, by simp, rfl, hrest⟩

/-- The edits say where they stand. -/
theorem endsRight_of_located (h : Along (Located old new) i j hunk p q) :
    EndsRight p q j hunk := by
  constructor
  · intro e he
    obtain ⟨es, rfl⟩ := List.head?_eq_some_iff.1 he
    exact h.1.new
  · intro e he
    obtain ⟨front, rfl⟩ := List.getLast?_eq_some_iff.1 he
    obtain ⟨_, _, -, he, rfl, rfl⟩ := along_append_iff.1 h
    rw [he.old, he.new]
    exact ⟨rfl, rfl⟩

/-- Whether a hunk begins and ends in kept lines. -/
structure Hunk.IsFramed (h : Hunk) : Prop where
  opening : ∀ row ∈ h.rows.head?, row.1 = .kept
  closing : ∀ row ∈ h.rows.getLast?, row.1 = .kept

theorem editRows_ne_nil (h : Stands old new i j e) : editRows old new e ≠ [] := by
  have hne : ∀ {s : List TextLine} {start n : Nat} (sign : Sign), 0 < n → start + n ≤ s.length →
      (stretch s start n).map (fun line => (sign, line)) ≠ [] := by
    intro s start n sign hpos hle hnil
    have hlen := length_stretch hle
    rw [List.map_eq_nil_iff.1 hnil] at hlen
    exact absurd hlen (Nat.ne_of_lt hpos)
  cases h with
  | plain h =>
    cases h with
    | keep pos ho => exact hne .kept pos ho
    | delete pos ho => exact hne .removed pos ho
    | insert pos hn => exact hne .added pos hn
  | replace pos _ ho _ => exact List.append_ne_nil_of_left_ne_nil (hne .removed pos ho) _

/-- Only an edit that keeps shows kept lines. -/
theorem isKeep_of_mem_editRows {row : Row} (h : row ∈ editRows old new e) (hrow : row.1 = .kept) :
    e.isKeep = true := by
  have hsigned : ∀ {sign : Sign} {lines : List TextLine},
      row ∈ lines.map (fun line => (sign, line)) → sign = .kept := by
    intro sign lines h
    obtain ⟨line, -, rfl⟩ := List.mem_map.1 h
    exact hrow
  unfold editRows at h
  cases hk : e.kind with
  | keep =>
    rw [Edit.isKeep, hk]
    rfl
  | delete =>
    rw [hk] at h
    cases hsigned h
  | insert =>
    rw [hk] at h
    cases hsigned h
  | replace =>
    rw [hk] at h
    rcases List.mem_append.1 h with h | h <;> cases hsigned h

/-- The edits at both ends keep. -/
theorem endsRight_of_framed (h : Along (Stands old new) i j hunk p q)
    (hframed : (Hunk.ofEdits old new hunk).IsFramed) : EndsRight p q j hunk := by
  obtain ⟨hopening, hclosing⟩ := hframed
  constructor
  · intro e he
    obtain ⟨es, rfl⟩ := List.head?_eq_some_iff.1 he
    have hne := editRows_ne_nil h.1
    have hhead : (Hunk.ofEdits old new (e :: es)).rows.head?
        = some ((editRows old new e).head hne) := by
      show (List.flatMap _ (e :: es)).head? = _
      rw [List.flatMap_cons, List.head?_append, List.head?_eq_some_head hne, Option.some_or]
    obtain ⟨n, rfl, -⟩ := h.1.eq_keep
      (isKeep_of_mem_editRows (List.head_mem hne) (hopening _ hhead))
    rfl
  · intro e he
    obtain ⟨front, rfl⟩ := List.getLast?_eq_some_iff.1 he
    obtain ⟨_, _, -, he, rfl, rfl⟩ := along_append_iff.1 h
    have hne := editRows_ne_nil he
    have hlast : (Hunk.ofEdits old new (front ++ [e])).rows.getLast?
        = some ((editRows old new e).getLast hne) := by
      show (List.flatMap _ (front ++ [e])).getLast? = _
      rw [List.flatMap_append, List.flatMap_singleton, List.getLast?_append,
        List.getLast?_eq_some_getLast hne, Option.some_or]
    obtain ⟨n, rfl, -⟩ := he.eq_keep
      (isKeep_of_mem_editRows (List.getLast_mem hne) (hclosing _ hlast))
    exact ⟨rfl, rfl⟩

/-! ### Differences of two texts -/

variable (name : String) {before after : String}

theorem shownHunks_ne_nil (h : after ≠ before) :
    shownHunks (linesOf before) (linesOf after) ≠ [] := by
  intro hnil
  have hspaced := spaced_shownHunks (linesOf before) (linesOf after)
  rw [hnil] at hspaced
  cases hspaced with
  | rest same =>
    refine h (String.toList_inj.1 ?_)
    rw [← Text.flatten_terminatedLines after.toList, ← Text.flatten_terminatedLines before.toList]
    exact congrArg List.flatten same.symm

theorem unified_ne_empty (h : after ≠ before) : unified name before after ≠ "" := by
  rw [unified_eq, if_neg (shownHunks_ne_nil h)]
  intro hempty
  have := congrArg String.toList hempty
  simp [header] at this

/-- **A difference turns the one text into the other**, by its signs and by where its hunks start in
the old one. -/
theorem patched?_unified (h : after ≠ before) :
    patched? name (unified name before after) before = some after := by
  have hrewrite := rewrite?_spaced (cuttable_stands _ _)
    (spaced_shownHunks (linesOf before) (linesOf after))
  rw [List.drop_zero, List.drop_zero] at hrewrite
  rw [patched?, readUnified?_unified name before after (shownHunks_ne_nil h), Option.bind_eq_bind,
    Option.bind_some, hrewrite, Option.bind_eq_bind, Option.bind_some,
    Text.flatten_terminatedLines, String.ofList_toList]
  rfl

/-- The edits that are found between two texts and brought into their compact form say where they
stand, each of them in both texts. -/
def IsValidScript (old new : List TextLine) : Prop :=
  Along (Located old new) 0 0 (compact new (edits old new)) old.length new.length

/-- An insertion that has changed places with a deletion, after which the deletion does not say
where it stands, and a title that goes by both of them.  The hunk shows two lines of each text from
the first one on; by its title it has one line of each, and that is the second one in the new
text. -/
theorem wrong_title :
    ¬IsValidScript (linesOf "b\na\n") (linesOf "a\na\n") ∧
      unified "a.py" "b\na\n" "a\na\n"
        = "--- a/a.py\n+++ b/a.py\n@@ -1 +2 @@\n-b\n a\n+a\n" ∧
      strictlyPatched? "a.py" (unified "a.py" "b\na\n" "a\na\n") "b\na\n" = none := by
  have hedits : compact (linesOf "a\na\n") (edits (linesOf "b\na\n") (linesOf "a\na\n"))
      = [.delete 0 1 1, .keep 1 0 1, .insert 1 1 1] := by
    decide +kernel
  refine ⟨fun hvalid => ?_, by decide +kernel, by decide +kernel⟩
  rw [IsValidScript, hedits] at hvalid
  cases hvalid.1.new

/-- **The titles of a difference are right** if the edits say where they stand, or if all hunks
begin and end in kept lines. -/
theorem strictlyPatched?_unified (h : after ≠ before)
    (htitles : IsValidScript (linesOf before) (linesOf after) ∨
      ∀ hunks, readUnified? name (unified name before after) = some hunks →
        ∀ hunk ∈ hunks, hunk.IsFramed) :
    strictlyPatched? name (unified name before after) before = some after := by
  have hread := readUnified?_unified name before after (shownHunks_ne_nil h)
  have hright : TitlesRight 0 0 ((shownHunks (linesOf before) (linesOf after)).map
      (Hunk.ofEdits (linesOf before) (linesOf after))) := by
    rcases htitles with hvalid | hframed
    · exact titlesRight_of_endsRight (cuttable_located _ _)
        (spaced_hunks (cuttable_located _ _) hvalid (old_of_head_compact _ _))
        fun _ _ => endsRight_of_located
    · refine titlesRight_of_endsRight (cuttable_stands _ _) (spaced_shownHunks _ _) ?_
      intro hunk hhunk _ _ _ _ halong
      exact endsRight_of_framed halong (hframed _ hread _ (List.mem_map_of_mem hhunk))
  rw [strictlyPatched?, hread, Option.bind_eq_bind, Option.bind_some, if_pos hright,
    patched?_unified name h]

end LintHost.Diff
