/-
LintHost/Proofs/Diff/Scripts.lean

What it is for a row of edits to lead from one text to another.  Each edit has to fit
where the row has come to (`Fits`): what it keeps is the same on both sides, what it
deletes it finds in the old text and what it inserts in the new one.  The place on the
other side is not asked for, since an edit that is moved later on does not keep it up.

Main result: the edits that are searched for lead through both texts (`along_edits`).
-/
import LintHost.Diff.Search
import Mathlib.Data.List.TakeDrop

namespace LintHost.Diff

variable {α : Type} {old new : List α} {i j i' j' : Nat} {e : Edit}

/-! ### Stretches -/

theorem length_stretch {s : List α} {start count : Nat} (h : start + count ≤ s.length) :
    (stretch s start count).length = count := by
  rw [stretch, List.length_take, List.length_drop]
  omega

theorem stretch_add (s : List α) (start m n : Nat) :
    stretch s start (m + n) = stretch s start m ++ stretch s (start + m) n := by
  rw [stretch, List.take_add, List.drop_drop]
  rfl

theorem drop_stretch (s : List α) (start count n : Nat) :
    (stretch s start count).drop n = stretch s (start + n) (count - n) := by
  rw [stretch, List.drop_take, List.drop_drop]
  rfl

theorem take_stretch (s : List α) (start : Nat) {count n : Nat} (h : n ≤ count) :
    (stretch s start count).take n = stretch s start n := by
  rw [stretch, List.take_take, Nat.min_eq_left h]
  rfl

/-- Parts of a common stretch are the same. -/
theorem stretch_part_eq {n k m : Nat} (same : stretch old i n = stretch new j n) (h : k + m ≤ n) :
    stretch old (i + k) m = stretch new (j + k) m := by
  have hm : m ≤ n - k := by omega
  rw [← take_stretch old (i + k) hm, ← take_stretch new (j + k) hm, ← drop_stretch,
    ← drop_stretch, same]

/-- A stretch is in common if both parts of it are. -/
theorem stretch_add_eq_iff {m n : Nat} : stretch old i (m + n) = stretch new j (m + n) ↔
    stretch old i m = stretch new j m ∧ stretch old (i + m) n = stretch new (j + m) n := by
  constructor
  · intro same
    exact ⟨stretch_part_eq (k := 0) same (by omega), stretch_part_eq same (Nat.le_refl _)⟩
  · rintro ⟨first, second⟩
    rw [stretch_add, stretch_add, first, second]

/-- What stands at a place is a stretch from there. -/
theorem stretch_eq_of_isPrefix {s a : List α} (h : a <+: s.drop i) : stretch s i a.length = a :=
  (List.prefix_iff_eq_take.1 h).symm

theorem le_length_of_isPrefix {s a : List α} (h : a <+: s.drop i) (ha : a ≠ []) :
    i + a.length ≤ s.length := by
  have hle := h.length_le
  rw [List.length_drop] at hle
  have := List.length_pos_iff.2 ha
  omega

/-- What stands at a place in two parts. -/
theorem append_prefix_drop_iff {s a b : List α} :
    a ++ b <+: s.drop i ↔ a <+: s.drop i ∧ b <+: s.drop (i + a.length) := by
  constructor
  · rintro ⟨t, ht⟩
    refine ⟨⟨b ++ t, by rw [← ht, List.append_assoc]⟩, t, ?_⟩
    rw [← List.drop_drop, ← ht, List.append_assoc, List.drop_left]
  · rintro ⟨⟨t, ht⟩, u, hu⟩
    refine ⟨u, ?_⟩
    rw [← List.drop_drop, ← ht, List.drop_left] at hu
    rw [← ht, ← hu, List.append_assoc]

/-! ### Rows that lead from one place to another -/

/-- Whether an edit does what its kind says at a place in each text.  An edit that covers nothing on
one side may have any place there. -/
inductive Fits (old new : List α) (i j : Nat) : Edit → Prop
  | keep {n : Nat} (pos : 0 < n) (ho : i + n ≤ old.length) (hn : j + n ≤ new.length)
      (same : stretch old i n = stretch new j n) : Fits old new i j (.keep i j n)
  | delete {n k : Nat} (pos : 0 < n) (ho : i + n ≤ old.length) : Fits old new i j (.delete i k n)
  | insert {n k : Nat} (pos : 0 < n) (hn : j + n ≤ new.length) : Fits old new i j (.insert k j n)

theorem Fits.size_pos (h : Fits old new i j e) : 0 < e.size := by
  cases h with
  | keep pos => exact Nat.add_pos_left pos _
  | delete pos => exact pos
  | insert pos => exact Nat.add_pos_right _ pos

theorem Fits.eq_keep (h : Fits old new i j e) (hk : e.isKeep = true) : ∃ n, e = .keep i j n := by
  cases h with
  | @keep n => exact ⟨n, rfl⟩
  | delete => cases hk
  | insert => cases hk

theorem Fits.eq_insert (h : Fits old new i j e) (hk : e.kind = .insert) :
    ∃ k n, e = .insert k j n := by
  cases h with
  | keep => cases hk
  | delete => cases hk
  | @insert n k => exact ⟨k, n, rfl⟩

theorem Fits.eq_delete (h : Fits old new i j e) (hk : e.kind = .delete) :
    ∃ k n, e = .delete i k n := by
  cases h with
  | keep => cases hk
  | @delete n k => exact ⟨k, n, rfl⟩
  | insert => cases hk

/-- Whether an edit fits at a pair of places, and says so. -/
structure Placed (old new : List α) (i j : Nat) (e : Edit) : Prop where
  fits : Fits old new i j e
  old : e.old = i
  new : e.new = j

/-- Whether a row of edits leads from one pair of places to another one, and each of them is right
where the row has come to. -/
def Along (P : Nat → Nat → Edit → Prop) : Nat → Nat → List Edit → Nat → Nat → Prop
  | i, j, [], i', j' => i = i' ∧ j = j'
  | i, j, e :: es, i', j' => P i j e ∧ Along P (i + e.oldCount) (j + e.newCount) es i' j'

/-- Whether a row of edits turns a part of one text into a part of the other. -/
abbrev Covers (old new : List α) : Nat → Nat → List Edit → Nat → Nat → Prop :=
  Along (Fits old new)

variable {P : Nat → Nat → Edit → Prop} {es fs : List Edit}

theorem along_nil (i j : Nat) : Along P i j [] i j := ⟨rfl, rfl⟩

theorem along_singleton (h : P i j e) : Along P i j [e] (i + e.oldCount) (j + e.newCount) :=
  ⟨h, rfl, rfl⟩

theorem along_append_iff : Along P i j (es ++ fs) i' j' ↔
    ∃ p q, Along P i j es p q ∧ Along P p q fs i' j' := by
  induction es generalizing i j with
  | nil =>
    constructor
    · intro h
      exact ⟨i, j, along_nil i j, h⟩
    · rintro ⟨_, _, ⟨rfl, rfl⟩, h⟩
      exact h
  | cons e es ih =>
    constructor
    · rintro ⟨he, h⟩
      obtain ⟨p, q, hes, hfs⟩ := ih.1 h
      exact ⟨p, q, ⟨he, hes⟩, hfs⟩
    · rintro ⟨p, q, ⟨he, hes⟩, hfs⟩
      exact ⟨he, ih.2 ⟨p, q, hes, hfs⟩⟩

theorem Along.append {p q : Nat} (hes : Along P i j es p q) (hfs : Along P p q fs i' j') :
    Along P i j (es ++ fs) i' j' :=
  along_append_iff.2 ⟨p, q, hes, hfs⟩

theorem Along.imp {Q : Nat → Nat → Edit → Prop} (h : ∀ i j e, P i j e → Q i j e)
    (hes : Along P i j es i' j') : Along Q i j es i' j' := by
  induction es generalizing i j with
  | nil => exact hes
  | cons e es ih => exact ⟨h _ _ _ hes.1, ih hes.2⟩

theorem Along.covers (h : Along (Placed old new) i j es i' j') : Covers old new i j es i' j' :=
  h.imp fun _ _ _ h => h.fits

theorem covers_append_iff : Covers old new i j (es ++ fs) i' j' ↔
    ∃ p q, Covers old new i j es p q ∧ Covers old new p q fs i' j' :=
  along_append_iff

theorem Covers.append {p q : Nat} (hes : Covers old new i j es p q)
    (hfs : Covers old new p q fs i' j') : Covers old new i j (es ++ fs) i' j' :=
  Along.append hes hfs

theorem Covers.exists_fits (h : Covers old new i j es i' j') :
    ∀ e ∈ es, ∃ p q, Fits old new p q e := by
  induction es generalizing i j with
  | nil => exact fun _ h => absurd h List.not_mem_nil
  | cons e es ih =>
    intro f hf
    rcases List.mem_cons.1 hf with rfl | hf
    · exact ⟨i, j, h.1⟩
    · exact ih h.2 f hf

/-! ### The first edit of a row -/

variable {a b n : Nat}

theorem fits_keep_iff : Fits old new i j (.keep a b n) ↔
    a = i ∧ b = j ∧ 0 < n ∧ i + n ≤ old.length ∧ j + n ≤ new.length ∧
      stretch old i n = stretch new j n := by
  constructor
  · rintro ⟨⟩
    exact ⟨rfl, rfl, ‹_›, ‹_›, ‹_›, ‹_›⟩
  · rintro ⟨rfl, rfl, pos, ho, hn, same⟩
    exact .keep pos ho hn same

theorem fits_delete_iff :
    Fits old new i j (.delete a b n) ↔ a = i ∧ 0 < n ∧ i + n ≤ old.length := by
  constructor
  · rintro ⟨⟩
    exact ⟨rfl, ‹_›, ‹_›⟩
  · rintro ⟨rfl, pos, ho⟩
    exact .delete pos ho

theorem fits_insert_iff :
    Fits old new i j (.insert a b n) ↔ b = j ∧ 0 < n ∧ j + n ≤ new.length := by
  constructor
  · rintro ⟨⟩
    exact ⟨rfl, ‹_›, ‹_›⟩
  · rintro ⟨rfl, pos, hn⟩
    exact .insert pos hn

theorem covers_keep_cons_iff : Covers old new i j (.keep a b n :: es) i' j' ↔
    a = i ∧ b = j ∧ 0 < n ∧ i + n ≤ old.length ∧ j + n ≤ new.length ∧
      stretch old i n = stretch new j n ∧ Covers old new (i + n) (j + n) es i' j' := by
  show Fits old new i j _ ∧ _ ↔ _
  simp only [fits_keep_iff, and_assoc]
  rfl

theorem covers_delete_cons_iff : Covers old new i j (.delete a b n :: es) i' j' ↔
    a = i ∧ 0 < n ∧ i + n ≤ old.length ∧ Covers old new (i + n) j es i' j' := by
  show Fits old new i j _ ∧ _ ↔ _
  simp only [fits_delete_iff, and_assoc]
  rfl

theorem covers_insert_cons_iff : Covers old new i j (.insert a b n :: es) i' j' ↔
    b = j ∧ 0 < n ∧ j + n ≤ new.length ∧ Covers old new i (j + n) es i' j' := by
  show Fits old new i j _ ∧ _ ↔ _
  simp only [fits_insert_iff, and_assoc]
  rfl

/-! ### What is found at a place -/

/-- Whether a row of edits turns one sequence into another one, where these stand at a pair of
places. -/
def Turns (old new : List α) (i j : Nat) (es : List Edit) (a b : List α) : Prop :=
  a <+: old.drop i → b <+: new.drop j →
    Along (Placed old new) i j es (i + a.length) (j + b.length)

theorem turns_nil : Turns old new i j [] [] [] := fun _ _ => along_nil i j

/-- What both texts have at a place is kept. -/
theorem turns_kept (c : List α) : Turns old new i j (kept i j c.length) c c := by
  intro ho hn
  unfold kept
  split
  · next h =>
    rw [h]
    exact along_nil i j
  · next h =>
    have hne : c ≠ [] := fun hc => h (by rw [hc]; rfl)
    have same : stretch old i c.length = stretch new j c.length := by
      rw [stretch_eq_of_isPrefix ho, stretch_eq_of_isPrefix hn]
    exact along_singleton ⟨.keep (Nat.pos_of_ne_zero h) (le_length_of_isPrefix ho hne)
      (le_length_of_isPrefix hn hne) same, rfl, rfl⟩

theorem turns_delete {a : List α} (ha : a ≠ []) :
    Turns old new i j [.delete i j a.length] a [] := fun ho _ =>
  along_singleton ⟨.delete (List.length_pos_iff.2 ha) (le_length_of_isPrefix ho ha), rfl, rfl⟩

theorem turns_insert {b : List α} (hb : b ≠ []) :
    Turns old new i j [.insert i j b.length] [] b := fun _ hn =>
  along_singleton ⟨.insert (List.length_pos_iff.2 hb) (le_length_of_isPrefix hn hb), rfl, rfl⟩

theorem Turns.append {a b c d : List α} (first : Turns old new i j es a b)
    (second : Turns old new (i + a.length) (j + b.length) fs c d) :
    Turns old new i j (es ++ fs) (a ++ c) (b ++ d) := by
  intro ho hn
  obtain ⟨hao, hco⟩ := append_prefix_drop_iff.1 ho
  obtain ⟨hbn, hdn⟩ := append_prefix_drop_iff.1 hn
  rw [List.length_append, List.length_append, ← Nat.add_assoc, ← Nat.add_assoc]
  exact (first hao hbn).append (second hco hdn)

/-- What is kept of a stretch that both texts have. -/
theorem covers_kept {n : Nat} (ho : i + n ≤ old.length) (hn : j + n ≤ new.length)
    (same : stretch old i n = stretch new j n) :
    Covers old new i j (kept i j n) (i + n) (j + n) := by
  unfold kept
  split
  · next h =>
    rw [h]
    exact along_nil i j
  · next h => exact along_singleton (.keep (Nat.pos_of_ne_zero h) ho hn same)

/-! ### Cuts -/

/-- What a cut leaves in front of it is smaller than the whole. -/
theorem Cut.length_take_lt {a b : List α} (cut : Cut a.length b.length) :
    (a.take cut.x).length + (b.take cut.y).length < a.length + b.length := by
  rw [List.length_take_of_le cut.x_le, List.length_take_of_le cut.y_le]
  exact cut.lt

/-- What a cut leaves behind it is smaller than the whole. -/
theorem Cut.length_drop_lt {a b : List α} (cut : Cut a.length b.length) :
    (a.drop cut.x).length + (b.drop cut.y).length < a.length + b.length := by
  have hpos := cut.pos
  have hx := cut.x_le
  have hy := cut.y_le
  rw [List.length_drop, List.length_drop]
  omega

/-- Both parts of a cut are turned one after the other. -/
theorem Turns.cut {a b : List α} (cut : Cut a.length b.length)
    (first : Turns old new i j es (a.take cut.x) (b.take cut.y))
    (second : Turns old new (i + cut.x) (j + cut.y) fs (a.drop cut.x) (b.drop cut.y)) :
    Turns old new i j (es ++ fs) a b := by
  have hx : (a.take cut.x).length = cut.x := List.length_take_of_le cut.x_le
  have hy : (b.take cut.y).length = cut.y := List.length_take_of_le cut.y_le
  have h := first.append (by rw [hx, hy]; exact second)
  rwa [List.take_append_drop, List.take_append_drop] at h

/-! ### What two sequences share -/

variable [DecidableEq α]

theorem take_sharedStart (a b : List α) :
    a.take (sharedStart a b) = b.take (sharedStart a b) := by
  fun_induction sharedStart a b with
  | case1 s b t ih => rw [List.take_succ_cons, List.take_succ_cons, ih]
  | case2 => rfl
  | case3 => rfl

theorem take_sharedEnd_reverse (a b : List α) :
    a.reverse.take (sharedEnd a b) = b.reverse.take (sharedEnd a b) :=
  take_sharedStart a.reverse b.reverse

/-- What two sequences share at their ends. -/
theorem drop_sharedEnd (a b : List α) :
    a.drop (a.length - sharedEnd a b) = b.drop (b.length - sharedEnd a b) := by
  have h := congrArg List.reverse (take_sharedEnd_reverse a b)
  rwa [List.take_reverse, List.take_reverse, List.reverse_reverse, List.reverse_reverse] at h

/-- Two sequences in three parts, of which they share the first and the last one. -/
theorem exists_shared (a b : List α) :
    let p := sharedStart a b
    let s := sharedEnd (a.drop p) (b.drop p)
    ∃ c z, c.length = p ∧ z.length = s ∧
      a = c ++ ((a.drop p).take (a.length - p - s) ++ z) ∧
      b = c ++ ((b.drop p).take (b.length - p - s) ++ z) := by
  intro p s
  have hpa : p ≤ a.length := sharedStart_le_left a b
  have hsa : s ≤ (a.drop p).length := sharedEnd_le_left _ _
  refine ⟨a.take p, (a.drop p).drop (a.length - p - s), ?_, ?_, ?_, ?_⟩
  · rw [List.length_take]
    omega
  · rw [List.length_drop]
    rw [List.length_drop] at hsa ⊢
    omega
  · rw [List.take_append_drop, List.take_append_drop]
  · have hend := drop_sharedEnd (a.drop p) (b.drop p)
    rw [List.length_drop, List.length_drop] at hend
    rw [take_sharedStart a b, hend, List.take_append_drop, List.take_append_drop]

/-! ### The edits that are found -/

/-- **The edits between two parts** turn the one into the other, wherever these stand. -/
theorem turns_editsFrom (i j : Nat) (a b : List α) :
    Turns old new i j (editsFrom i j a b) a b := by
  induction hsize : a.length + b.length using Nat.strongRecOn generalizing i j a b with
  | ind size ih =>
    subst hsize
    unfold editsFrom
    extract_lets p s a' b' i₁ j₁ sides between
    obtain ⟨c, z, hc, hz, ha, hb⟩ : ∃ c z, c.length = p ∧ z.length = s ∧
        a = c ++ (a' ++ z) ∧ b = c ++ (b' ++ z) := exists_shared a b
    have hla : a'.length ≤ a.length := by rw [ha, List.length_append, List.length_append]; omega
    have hlb : b'.length ≤ b.length := by rw [hb, List.length_append, List.length_append]; omega
    have hbetween : Turns old new i₁ j₁ between a' b' := by
      simp only [between]
      split
      · next h =>
        rw [h.1, h.2]
        exact turns_nil
      split
      · next h hb' =>
        rw [hb']
        exact turns_delete fun ha' => h ⟨ha', hb'⟩
      split
      · next hb' ha' =>
        rw [ha']
        exact turns_insert hb'
      next hb' ha' =>
      split
      · next cut _ =>
        -- both parts of a cut are smaller than the whole
        refine .cut cut (ih _ ?_ _ _ _ _ rfl) (ih _ ?_ _ _ _ _ rfl)
        · exact Nat.lt_of_lt_of_le cut.length_take_lt (Nat.add_le_add hla hlb)
        · exact Nat.lt_of_lt_of_le cut.length_drop_lt (Nat.add_le_add hla hlb)
      · have hdelete : Turns old new i₁ j₁ [.delete i₁ j₁ a'.length] a' [] := turns_delete ha'
        have h := hdelete.append (turns_insert hb')
        rwa [List.append_nil, List.nil_append] at h
    have hstart : Turns old new i j (kept i j p) c c := by
      rw [← hc]
      exact turns_kept c
    have hi : i + (c ++ a').length = i₁ + a'.length := by
      rw [List.length_append, hc, ← Nat.add_assoc]
    have hj : j + (c ++ b').length = j₁ + b'.length := by
      rw [List.length_append, hc, ← Nat.add_assoc]
    have h := (hstart.append (by rw [hc]; exact hbetween)).append (turns_kept z)
    rwa [hi, hj, hz, List.append_assoc c, List.append_assoc c, ← ha, ← hb] at h

/-- **The edits between two texts** lead through both of them. -/
theorem along_edits (old new : List α) :
    Along (Placed old new) 0 0 (edits old new) old.length new.length := by
  have h := turns_editsFrom 0 0 _ _ (List.prefix_refl (old.drop 0)) (List.prefix_refl (new.drop 0))
  rwa [List.drop_zero, List.drop_zero, Nat.zero_add, Nat.zero_add] at h

end LintHost.Diff
