/-
LintHost/Proofs/Diff/Hunks.lean

The hunks of a compact row.  They lie apart: what stands before the first one, between
two of them and behind the last one is the same in both texts, and each hunk leads
through its part of both (`Spaced`).  Hunks are cut from a row in which nothing but what
is kept is left out (`spaced_splitHunks`), wherever the row is cut.

Main result: the hunks that are shown of two texts lie apart, and each of them says where
it starts in the old one (`spaced_shownHunks`).
-/
import LintHost.Diff.Unified
import LintHost.Proofs.Diff.Joining

namespace LintHost.Diff

variable {α : Type} {old new : List α} {i j i' j' p q n : Nat} {hunk es : List Edit}

/-! ### Stretches in common -/

theorem stretch_append_drop (s : List α) (start count : Nat) :
    stretch s start count ++ s.drop (start + count) = s.drop start := by
  rw [stretch, ← List.drop_drop, List.take_append_drop]

/-- Two texts go on alike where they have a stretch in common and go on alike behind it. -/
theorem drop_eq_of_stretch_eq (same : stretch old i n = stretch new j n)
    (h : old.drop (i + n) = new.drop (j + n)) : old.drop i = new.drop j := by
  rw [← stretch_append_drop old i n, ← stretch_append_drop new j n, same, h]

/-! ### Rows that may be cut -/

theorem Stands.eq_keep {e : Edit} (h : Stands old new i j e) (hk : e.isKeep = true) :
    ∃ n, e = .keep i j n ∧ Fits old new i j (.keep i j n) := by
  cases h with
  | plain h =>
    obtain ⟨n, rfl⟩ := h.eq_keep hk
    exact ⟨n, rfl, h⟩
  | replace => cases hk

/-- Whether an edit does what its kind says at a place in each text, and says where it stands. -/
structure Located (old new : List α) (i j : Nat) (e : Edit) : Prop where
  stands : Stands old new i j e
  old : e.old = i
  new : e.new = j

/-- What may be asked of the edits of a row so that it can be cut into hunks: no less than that they
stand where the row has come to, and no more of one that keeps than that it fits there. -/
structure Cuttable (old new : List α) (P : Nat → Nat → Edit → Prop) : Prop where
  stands : ∀ {i j : Nat} {e : Edit}, P i j e → Stands old new i j e
  keep : ∀ {i j n : Nat}, Fits old new i j (.keep i j n) → P i j (.keep i j n)

theorem cuttable_stands (old new : List α) : Cuttable old new (Stands old new) :=
  ⟨id, .plain⟩

theorem cuttable_located (old new : List α) : Cuttable old new (Located old new) :=
  ⟨Located.stands, fun h => ⟨.plain h, rfl, rfl⟩⟩

/-! ### Hunks apart -/

/-- Whether hunks lie apart in two texts from a pair of places on.  What no hunk is about is the
same on both sides. -/
inductive Spaced (old new : List α) (P : Nat → Nat → Edit → Prop) :
    Nat → Nat → List (List Edit) → Prop
  | rest {i j : Nat} (same : old.drop i = new.drop j) : Spaced old new P i j []
  | hunk {i j n p q : Nat} {hunk : List Edit} {hunks : List (List Edit)}
      (ho : i + n ≤ old.length) (hn : j + n ≤ new.length)
      (same : stretch old i n = stretch new j n) (ne : hunk ≠ [])
      (placed : ∀ e ∈ hunk.head?, e.old = i + n)
      (along : Along P (i + n) (j + n) hunk p q) (rest : Spaced old new P p q hunks) :
      Spaced old new P i j (hunk :: hunks)

theorem Spaced.ne_nil {P : Nat → Nat → Edit → Prop} {hunks : List (List Edit)}
    (h : Spaced old new P i j hunks) : ∀ hunk ∈ hunks, hunk ≠ [] := by
  induction h with
  | rest => exact fun _ h => absurd h List.not_mem_nil
  | hunk ho hn same ne placed along rest ih =>
    intro hunk hh
    rcases List.mem_cons.1 hh with rfl | hh
    · exact ne
    · exact ih hunk hh

/-! ### Parts of what is kept -/

section

variable {P : Nat → Nat → Edit → Prop} (hP : Cuttable old new P)

include hP

/-- A part of what is kept is kept. -/
theorem along_keep_part (h : Fits old new i j (.keep i j n)) {k m : Nat} (pos : 0 < m)
    (hle : k + m ≤ n) :
    Along P (i + k) (j + k) [.keep (i + k) (j + k) m] (i + k + m) (j + k + m) := by
  obtain ⟨-, -, -, ho, hn, same⟩ := fits_keep_iff.1 h
  exact along_singleton (hP.keep (.keep pos (by omega) (by omega) (stretch_part_eq same hle)))

theorem along_firstLines (h : Fits old new i j (.keep i j n)) :
    Along P i j [firstLines (.keep i j n)] (i + min n radius) (j + min n radius) := by
  have hpos : 0 < n := (fits_keep_iff.1 h).2.2.1
  have hpart := along_keep_part hP (k := 0) (m := min n radius) h (by unfold radius; omega)
    (by omega)
  exact hpart

theorem along_lastLines (h : Fits old new i j (.keep i j n)) :
    Along P (i + (n - radius)) (j + (n - radius)) [lastLines (.keep i j n)] (i + n) (j + n) := by
  have hpos : 0 < n := (fits_keep_iff.1 h).2.2.1
  have hpart := along_keep_part hP (k := n - radius) (m := n - (n - radius)) h
    (by unfold radius; omega) (by omega)
  have hi : i + (n - radius) + (n - (n - radius)) = i + n := by omega
  have hj : j + (n - radius) + (n - (n - radius)) = j + n := by omega
  rwa [hi, hj] at hpart

/-- Where all is kept, the texts go on alike if they do so behind it. -/
theorem drop_eq_of_kept (h : Along P i j es p q) (hkeep : ∀ e ∈ es, e.isKeep = true)
    (hend : old.drop p = new.drop q) : old.drop i = new.drop j := by
  induction es generalizing i j with
  | nil =>
    obtain ⟨rfl, rfl⟩ := h
    exact hend
  | cons e es ih =>
    obtain ⟨n, rfl, hfits⟩ := (hP.stands h.1).eq_keep (hkeep e List.mem_cons_self)
    obtain ⟨-, -, -, -, -, same⟩ := fits_keep_iff.1 hfits
    exact drop_eq_of_stretch_eq same (ih h.2 fun f hf => hkeep f (by simp [hf]))

/-! ### Cutting -/

/-- **Cutting a row into hunks.**  The edits of the hunk begun so far stand behind `n` elements that
both texts have. -/
theorem spaced_splitHunks (ho : i + n ≤ old.length) (hn : j + n ≤ new.length)
    (same : stretch old i n = stretch new j n) (placed : ∀ e ∈ (hunk ++ es).head?, e.old = i + n)
    (hhunk : Along P (i + n) (j + n) hunk p q)
    (hes : Along P p q es i' j') (hend : old.drop i' = new.drop j') :
    Spaced old new P i j (splitHunks hunk es) := by
  induction es generalizing hunk i j n p q with
  | nil =>
    obtain ⟨rfl, rfl⟩ := hes
    rw [List.append_nil] at placed
    unfold splitHunks
    split
    · next hall =>
      rw [List.all_eq_true] at hall
      exact .rest (drop_eq_of_stretch_eq same (drop_eq_of_kept hP hhunk hall hend))
    · next hall =>
      have hne : hunk ≠ [] := fun h => hall (by rw [h]; rfl)
      exact .hunk ho hn same hne placed hhunk (.rest hend)
  | cons e es ih =>
    unfold splitHunks
    split
    · next hlong =>
      -- the hunk ends in the first lines of what is kept, and the next one begins in the last ones
      obtain ⟨m, rfl, hfits⟩ := (hP.stands hes.1).eq_keep hlong.1
      have hm : 2 * radius < m := hlong.2
      obtain ⟨-, -, -, hom, hnm, hkept⟩ := fits_keep_iff.1 hfits
      have hfirst := along_firstLines hP hfits
      rw [Nat.min_eq_right (by omega)] at hfirst
      have hgap : stretch old (p + radius) (m - 2 * radius)
          = stretch new (q + radius) (m - 2 * radius) := stretch_part_eq hkept (by omega)
      have hp : p + radius + (m - 2 * radius) = p + (m - radius) := by omega
      have hq : q + radius + (m - 2 * radius) = q + (m - radius) := by omega
      have hlast := along_lastLines hP hfits
      rw [← hp, ← hq] at hlast
      refine .hunk ho hn same (by simp) ?_ (hhunk.append hfirst) ?_
      · cases hunk with
        | nil =>
          intro f hf
          obtain rfl := Option.some.inj hf
          exact placed (.keep p q m) rfl
        | cons f hunk => exact placed
      · refine ih (by omega) (by omega) hgap ?_ hlast hes.2
        intro f hf
        obtain rfl := Option.some.inj hf
        exact hp.symm
    · refine ih ho hn same ?_ (hhunk.append (along_singleton hes.1)) hes.2
      rwa [List.append_assoc]

/-! ### What is not shown -/

/-- What is kept at the start of a row is cut to what is shown. -/
theorem along_trimStart (h : Along P 0 0 es i' j')
    (hplaced : ∀ e ∈ es.head?, e.old = 0) :
    ∃ n, n ≤ old.length ∧ n ≤ new.length ∧ stretch old 0 n = stretch new 0 n ∧
      (∀ e ∈ (trimStart es).head?, e.old = n) ∧
      Along P n n (trimStart es) i' j' := by
  have hnone : stretch old 0 0 = stretch new 0 0 := rfl
  cases es with
  | nil => exact ⟨0, Nat.zero_le _, Nat.zero_le _, hnone, hplaced, h⟩
  | cons e es =>
    rw [trimStart]
    split
    · next hkeep =>
      obtain ⟨n, rfl, hfits⟩ := (hP.stands h.1).eq_keep hkeep
      obtain ⟨-, -, -, ho, hn, same⟩ := fits_keep_iff.1 hfits
      have hlast := along_lastLines hP hfits
      have hpart := stretch_part_eq (k := 0) (m := n - radius) same (by omega)
      simp only [Nat.zero_add] at ho hn hlast
      refine ⟨n - radius, by omega, by omega, hpart, ?_, hlast.append ?_⟩
      · intro f hf
        obtain rfl := Option.some.inj hf
        exact Nat.zero_add _
      · have hrest : Along P (0 + n) (0 + n) es i' j' := h.2
        rwa [Nat.zero_add] at hrest
    · exact ⟨0, Nat.zero_le _, Nat.zero_le _, hnone, hplaced, h⟩

/-- What is kept at the end of a row is cut to what is shown. -/
theorem along_trimEnd (h : Along P i j es old.length new.length)
    (hplaced : ∀ e ∈ es.head?, e.old = i) :
    ∃ p q, Along P i j (trimEnd es) p q ∧ old.drop p = new.drop q ∧
      ∀ e ∈ (trimEnd es).head?, e.old = i := by
  have hnone : old.drop old.length = new.drop new.length := by
    rw [List.drop_length, List.drop_length]
  unfold trimEnd
  split
  · next e hlast =>
    split
    · next hkeep =>
      obtain ⟨front, rfl⟩ := List.getLast?_eq_some_iff.1 hlast
      obtain ⟨a, b, hfront, he⟩ := along_append_iff.1 h
      obtain ⟨n, rfl, hfits⟩ := (hP.stands he.1).eq_keep hkeep
      obtain ⟨-, -, -, ho, hn, same⟩ := fits_keep_iff.1 hfits
      rw [List.dropLast_concat]
      refine ⟨_, _, hfront.append (along_firstLines hP hfits), ?_, ?_⟩
      · have hpart : stretch old (a + min n radius) (n - min n radius)
            = stretch new (b + min n radius) (n - min n radius) :=
          stretch_part_eq same (by omega)
        obtain ⟨-, hoe, hne⟩ := he
        refine drop_eq_of_stretch_eq hpart ?_
        have hoe : a + n = old.length := hoe
        have hne : b + n = new.length := hne
        have ha : a + min n radius + (n - min n radius) = old.length := by omega
        have hb : b + min n radius + (n - min n radius) = new.length := by omega
        rw [ha, hb, hnone]
      · cases front with
        | nil =>
          intro f hf
          obtain rfl := Option.some.inj hf
          exact hplaced (.keep a b n) rfl
        | cons f front => exact hplaced
    · exact ⟨_, _, h, hnone, hplaced⟩
  · exact ⟨_, _, h, hnone, hplaced⟩

/-- **The hunks of a row lie apart** if it leads through both texts. -/
theorem spaced_hunks (h : Along P 0 0 es old.length new.length)
    (hplaced : ∀ e ∈ es.head?, e.old = 0) : Spaced old new P 0 0 (hunks es) := by
  obtain ⟨n, ho, hn, same, hplaced, hstart⟩ := along_trimStart hP h hplaced
  obtain ⟨p, q, hes, hend, hplaced⟩ := along_trimEnd hP hstart hplaced
  have ho' : 0 + n ≤ old.length := by omega
  have hn' : 0 + n ≤ new.length := by omega
  refine spaced_splitHunks hP ho' hn' same ?_ (along_nil _ _) ?_ hend
  · rwa [Nat.zero_add, List.nil_append]
  · rwa [Nat.zero_add]

end

/-- The hunks that are shown of two texts. -/
def shownHunks [DecidableEq α] (old new : List α) : List (List Edit) :=
  hunks (compact new (edits old new))

/-- The hunks that are shown of two texts lie apart in them. -/
theorem spaced_shownHunks [DecidableEq α] (old new : List α) :
    Spaced old new (Stands old new) 0 0 (shownHunks old new) :=
  spaced_hunks (cuttable_stands old new) (stands_compact old new) (old_of_head_compact old new)

end LintHost.Diff
