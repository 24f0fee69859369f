/-
LintHost/Proofs/Diff/Moves.lean

What sliding edits does to a row, one pair of neighbours at a time (`Move`).  An
insertion moves over kept elements that it shares with them, in either direction;
neighbours of one kind become one edit; and a deletion and an insertion change places.
A row that is gone through goes through moves only (`moves_slideAll`).

So whatever every move leaves alone, sliding leaves alone: a row still leads from one
text to the other (`Covers.of_moves`), the first insertion still tells how much is kept
before it (`Tells.of_moves`), and what happens first to the old text stays the same
(`firstFate_of_moves`).
-/
import LintHost.Diff.Compaction
import LintHost.Proofs.Diff.Scripts
import Mathlib.Logic.Relation

namespace LintHost.Diff

variable {α : Type} {old new : List α} {i j i' j' : Nat}

/-! ### Neighbours that change places -/

/-- What is inserted behind a kept part may be inserted before the end of that part, if the
insertion ends with it. -/
theorem Covers.up {a b r c d m n : Nat} (pos : 0 < n)
    (hend : stretch new (b + r) n = stretch new (d + m - n) n)
    (h : Covers old new i j [.keep a b (r + n), .insert c d m] i' j') :
    Covers old new i j
      (kept a b r ++ [.insert (c - n) (d - n) m, .keep (a + r) (d + m - n) n]) i' j' := by
  rw [covers_keep_cons_iff] at h
  obtain ⟨rfl, rfl, -, hok, hnk, same, h⟩ := h
  rw [covers_insert_cons_iff] at h
  obtain ⟨rfl, hm, hnm, rfl, rfl⟩ := h
  obtain ⟨hfront, hback⟩ := stretch_add_eq_iff.1 same
  have hplace : b + (r + n) + m - n = b + r + m := by omega
  rw [hplace] at hend ⊢
  refine (covers_kept (by omega) (by omega) hfront).append ?_
  rw [covers_insert_cons_iff, covers_keep_cons_iff]
  exact ⟨by omega, hm, by omega, rfl, rfl, pos, by omega, by omega, hback.trans hend, by omega,
    by omega⟩

/-- What is inserted before a kept part may be inserted behind the start of that part, if the
insertion starts with it. -/
theorem Covers.down {a b r c d m n : Nat} (pos : 0 < n)
    (hstart : stretch new b n = stretch new d n)
    (h : Covers old new i j [.insert c d m, .keep a b (n + r)] i' j') :
    Covers old new i j
      ([.keep a d n, .insert (c + n) (d + n) m] ++ kept (a + n) (b + n) r) i' j' := by
  rw [covers_insert_cons_iff] at h
  obtain ⟨rfl, hm, hnm, h⟩ := h
  rw [covers_keep_cons_iff] at h
  obtain ⟨rfl, rfl, -, hok, hnk, same, rfl, rfl⟩ := h
  obtain ⟨hfront, hback⟩ := stretch_add_eq_iff.1 same
  have hrest := covers_kept (by omega) (by omega) hback
  rw [List.cons_append, List.singleton_append, covers_keep_cons_iff, covers_insert_cons_iff,
    Nat.add_right_comm d n m]
  refine ⟨rfl, rfl, pos, by omega, by omega, hfront.trans hstart, rfl, hm, by omega, ?_⟩
  rwa [Nat.add_assoc a, Nat.add_assoc (d + m) n r] at hrest

/-- A deletion and an insertion that stand beside each other may change places. -/
theorem covers_swap {a b c d m n : Nat} :
    Covers old new i j [.delete a b m, .insert c d n] i' j' ↔
      Covers old new i j [.insert c d n, .delete a b m] i' j' := by
  rw [covers_delete_cons_iff, covers_insert_cons_iff, covers_insert_cons_iff,
    covers_delete_cons_iff]
  constructor
  · rintro ⟨ha, hm, ho, hd, hn, hnew, h⟩
    exact ⟨hd, hn, hnew, ha, hm, ho, h⟩
  · rintro ⟨hd, hn, hnew, ha, hm, ho, h⟩
    exact ⟨ha, hm, ho, hd, hn, hnew, h⟩

/-! ### Moves -/

variable [DecidableEq α]

/-- One move of neighbouring edits. -/
inductive Move (new : List α) : List Edit → List Edit → Prop
  /-- An insertion moves over the last kept elements in front of it. -/
  | up {a b k c d m n : Nat} (pos : 0 < n)
      (shared : n ≤ sharedEnd (stretch new b k) (stretch new d m)) :
      Move new [.keep a b k, .insert c d m]
        (kept a b (k - n) ++ [.insert (c - n) (d - n) m, .keep (a + k - n) (d + m - n) n])
  /-- An insertion moves over the first kept elements behind it. -/
  | down {a b k c d m n : Nat} (pos : 0 < n)
      (shared : n ≤ sharedStart (stretch new b k) (stretch new d m)) :
      Move new [.insert c d m, .keep a b k]
        ([.keep a d n, .insert (c + n) (d + n) m] ++ kept (a + n) (b + n) (k - n))
  | joinKeeps {a b m c d n : Nat} : Move new [.keep a b m, .keep c d n] [.keep a b (m + n)]
  | joinDeletes {a b m c d n : Nat} :
      Move new [.delete a b m, .delete c d n] [.delete a b (m + n)]
  | joinInserts {a b m c d n : Nat} :
      Move new [.insert a b m, .insert c d n] [.insert a b (m + n)]
  | insertFirst {a b m c d n : Nat} :
      Move new [.delete a b m, .insert c d n] [.insert c d n, .delete a b m]
  | deleteFirst {a b m c d n : Nat} :
      Move new [.insert c d n, .delete a b m] [.delete a b m, .insert c d n]

/-- One move somewhere in a row. -/
def MovesOnce (new : List α) (es fs : List Edit) : Prop :=
  ∃ a b m m', es = a ++ (m ++ b) ∧ fs = a ++ (m' ++ b) ∧ Move new m m'

/-- Moves one after the other. -/
abbrev Moves (new : List α) : List Edit → List Edit → Prop :=
  Relation.ReflTransGen (MovesOnce new)

theorem moves_of_move {m m' : List Edit} (h : Move new m m') (a b : List Edit) :
    Moves new (a ++ (m ++ b)) (a ++ (m' ++ b)) :=
  .single ⟨a, b, m, m', rfl, rfl, h⟩

/-! ### Rows still lead through both texts -/

/-- Two stretches with shared elements at their starts. -/
theorem stretch_eq_of_le_sharedStart {s : List α} {b k d m n : Nat}
    (h : n ≤ sharedStart (stretch s b k) (stretch s d m)) :
    n ≤ k ∧ n ≤ m ∧ stretch s b n = stretch s d n := by
  have hk : n ≤ k :=
    Nat.le_trans h (Nat.le_trans (sharedStart_le_left _ _) (length_stretch_le _ _ _))
  have hm : n ≤ m :=
    Nat.le_trans h (Nat.le_trans (sharedStart_le_right _ _) (length_stretch_le _ _ _))
  have heq := congrArg (List.take n) (take_sharedStart (stretch s b k) (stretch s d m))
  rw [List.take_take, List.take_take, Nat.min_eq_left h, take_stretch s b hk,
    take_stretch s d hm] at heq
  exact ⟨hk, hm, heq⟩

/-- Two stretches with shared elements at their ends. -/
theorem stretch_eq_of_le_sharedEnd {s : List α} {b k d m n : Nat} (hbk : b + k ≤ s.length)
    (hdm : d + m ≤ s.length) (h : n ≤ sharedEnd (stretch s b k) (stretch s d m)) :
    n ≤ k ∧ n ≤ m ∧ stretch s (b + k - n) n = stretch s (d + m - n) n := by
  have hk : n ≤ k :=
    Nat.le_trans h (Nat.le_trans (sharedEnd_le_left _ _) (length_stretch_le _ _ _))
  have hm : n ≤ m :=
    Nat.le_trans h (Nat.le_trans (sharedEnd_le_right _ _) (length_stretch_le _ _ _))
  have heq := congrArg (List.take n) (take_sharedEnd_reverse (stretch s b k) (stretch s d m))
  rw [List.take_take, List.take_take, Nat.min_eq_left h, List.take_reverse, List.take_reverse,
    length_stretch hbk, length_stretch hdm, drop_stretch, drop_stretch, List.reverse_inj,
    Nat.sub_sub_self hk, Nat.sub_sub_self hm, ← Nat.add_sub_assoc hk, ← Nat.add_sub_assoc hm]
    at heq
  exact ⟨hk, hm, heq⟩

/-- **A move leads to the same places.** -/
theorem Covers.of_move {m m' : List Edit} (hm : Move new m m') (h : Covers old new i j m i' j') :
    Covers old new i j m' i' j' := by
  cases hm with
  | @up a b k c d m n pos shared =>
    have hfits := h.exists_fits
    obtain ⟨p, q, hkeep⟩ := hfits (.keep a b k) (by simp)
    obtain ⟨p', q', hins⟩ := hfits (.insert c d m) (by simp)
    obtain ⟨-, rfl, -, -, hbk, -⟩ := fits_keep_iff.1 hkeep
    obtain ⟨rfl, -, hdm⟩ := fits_insert_iff.1 hins
    obtain ⟨hk, -, hend⟩ := stretch_eq_of_le_sharedEnd hbk hdm shared
    obtain ⟨r, rfl⟩ := Nat.exists_eq_add_of_le' hk
    rw [← Nat.add_assoc, Nat.add_sub_cancel] at hend
    rw [Nat.add_sub_cancel, ← Nat.add_assoc, Nat.add_sub_cancel]
    exact h.up pos hend
  | @down a b k c d m n pos shared =>
    obtain ⟨hk, -, hstart⟩ := stretch_eq_of_le_sharedStart shared
    obtain ⟨r, rfl⟩ := Nat.exists_eq_add_of_le hk
    rw [Nat.add_sub_cancel_left]
    exact h.down pos hstart
  | @joinKeeps a b m c d n =>
    rw [covers_keep_cons_iff] at h
    obtain ⟨rfl, rfl, hm, -, -, hfirst, h⟩ := h
    rw [covers_keep_cons_iff] at h
    obtain ⟨rfl, rfl, -, ho, hn, hsecond, rfl, rfl⟩ := h
    rw [covers_keep_cons_iff]
    exact ⟨rfl, rfl, by omega, by omega, by omega, stretch_add_eq_iff.2 ⟨hfirst, hsecond⟩,
      by omega, by omega⟩
  | @joinDeletes a b m c d n =>
    rw [covers_delete_cons_iff] at h
    obtain ⟨rfl, hm, -, h⟩ := h
    rw [covers_delete_cons_iff] at h
    obtain ⟨rfl, -, ho, rfl, rfl⟩ := h
    rw [covers_delete_cons_iff]
    exact ⟨rfl, by omega, by omega, by omega, rfl⟩
  | @joinInserts a b m c d n =>
    rw [covers_insert_cons_iff] at h
    obtain ⟨rfl, hm, -, h⟩ := h
    rw [covers_insert_cons_iff] at h
    obtain ⟨rfl, -, hn, rfl, rfl⟩ := h
    rw [covers_insert_cons_iff]
    exact ⟨rfl, by omega, by omega, rfl, by omega⟩
  | insertFirst => exact covers_swap.1 h
  | deleteFirst => exact covers_swap.2 h

theorem Covers.of_moves {es fs : List Edit} (hm : Moves new es fs)
    (h : Covers old new i j es i' j') : Covers old new i j fs i' j' := by
  induction hm with
  | refl => exact h
  | tail _ hstep ih =>
    obtain ⟨a, b, m, m', rfl, rfl, hm⟩ := hstep
    obtain ⟨p, q, ha, h⟩ := covers_append_iff.1 ih
    obtain ⟨p', q', hmid, hb⟩ := covers_append_iff.1 h
    exact ha.append ((Covers.of_move hm hmid).append hb)

/-! ### What stays at the start of a row -/

/-- Whether the first insertion of a row, before which `k` elements are kept already, tells how many
elements are kept before it as its place in the old text. -/
def Tells (k : Nat) : List Edit → Prop
  | [] => True
  | e :: es =>
    if e.kind = .insert then e.old = k else Tells (if e.isKeep then k + e.oldCount else k) es

/-- What happens to the first element of the old text, as the first edit tells that is no
insertion. -/
def firstFate (es : List Edit) : Option Kind :=
  (es.find? fun e => e.kind != .insert).map (·.kind)

theorem tells_kept_append_iff {k a b n : Nat} {es : List Edit} :
    Tells k (kept a b n ++ es) ↔ Tells (k + n) es := by
  unfold kept
  split
  · next h => rw [h, Nat.add_zero, List.nil_append]
  · exact Iff.rfl

theorem Tells.of_move {k : Nat} {m m' : List Edit} (hm : Move new m m') (b : List Edit)
    (h : Tells k (m ++ b)) : Tells k (m' ++ b) := by
  cases hm with
  | @up a b' k' c d m n pos shared =>
    have hn : n ≤ k' := Nat.le_trans shared (Nat.le_trans (sharedEnd_le_left _ _)
      (length_stretch_le _ _ _))
    rw [List.append_assoc, tells_kept_append_iff]
    have h : c = k + k' := h
    show c - n = k + (k' - n)
    omega
  | down => exact congrArg (· + _) h
  | @joinKeeps a b' m c d n =>
    have h : Tells (k + m + n) b := h
    show Tells (k + (m + n)) b
    rwa [← Nat.add_assoc]
  | joinDeletes | joinInserts | insertFirst | deleteFirst => exact h

/-- What follows a part of a row counts for the first insertion only if the part has none. -/
theorem Tells.append_congr {k : Nat} {m m' : List Edit} (h : ∀ k, Tells k m → Tells k m')
    (a : List Edit) : Tells k (a ++ m) → Tells k (a ++ m') := by
  induction a generalizing k with
  | nil => exact h k
  | cons e a ih =>
    rw [List.cons_append, List.cons_append]
    unfold Tells
    split
    · exact id
    · exact ih

/-- **Moves keep up what the first insertion tells.** -/
theorem Tells.of_moves {k : Nat} {es fs : List Edit} (hm : Moves new es fs) (h : Tells k es) :
    Tells k fs := by
  induction hm with
  | refl => exact h
  | tail _ hstep ih =>
    obtain ⟨a, b, m, m', rfl, rfl, hm⟩ := hstep
    exact Tells.append_congr (fun _ => Tells.of_move hm b) a ih

theorem firstFate_of_move {m m' : List Edit} (hm : Move new m m') :
    firstFate m' = firstFate m := by
  cases hm with
  | up =>
    unfold kept
    split <;> rfl
  | down | joinKeeps | joinDeletes | joinInserts | insertFirst | deleteFirst => rfl

theorem firstFate_append (es fs : List Edit) :
    firstFate (es ++ fs) = (firstFate es).or (firstFate fs) := by
  unfold firstFate
  rw [List.find?_append, Option.map_or]

/-- **Moves leave alone what happens first to the old text.** -/
theorem firstFate_of_moves {es fs : List Edit} (hm : Moves new es fs) :
    firstFate fs = firstFate es := by
  induction hm with
  | refl => rfl
  | tail _ hstep ih =>
    obtain ⟨a, b, m, m', rfl, rfl, hm⟩ := hstep
    rw [← ih]
    simp only [firstFate_append, firstFate_of_move hm]

end LintHost.Diff
