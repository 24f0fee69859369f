/-
LintHost/Proofs/Path/Order.lean

The order of paths is a linear order of what they denote: it never contradicts
itself, and two paths compare as equal exactly when they have the same components
(`compare_eq_iff_same`).

Main result: sorting paths of which no two denote the same file gives a strictly
increasing list (`pairwise_lt_mergeSort`).
-/
import LintHost.Path.Basic

namespace LintHost.Path

open Std

/-! ### Components -/

instance : TransOrd RawText :=
  inferInstanceAs (TransCmp (compareOn RawText.bytes))

instance : LawfulEqOrd RawText where
  eq_of_compare {r s} h := by
    obtain ⟨bytes⟩ := r
    obtain ⟨bytes'⟩ := s
    have hb : bytes = bytes' := LawfulEqOrd.eq_of_compare h
    rw [hb]

instance : TransOrd Component :=
  inferInstanceAs (TransCmp (compareLex (compareOn Component.rank) (compareOn Component.spelling)))

/-- Components of one kind that are spelled alike are equal. -/
theorem Component.eq_of_rank_of_spelling {c d : Component} (hr : c.rank = d.rank)
    (hs : c.spelling = d.spelling) : c = d := by
  cases c <;> cases d <;> simp_all [rank, spelling]

instance : LawfulEqOrd Component where
  eq_of_compare {c d} h := by
    obtain ⟨hr, hs⟩ := compareLex_eq_eq.1 h
    exact Component.eq_of_rank_of_spelling (LawfulEqOrd.eq_of_compare hr)
      (LawfulEqOrd.eq_of_compare hs)

/-! ### Paths -/

theorem compare_eq (p q : Path) : p.compare q = Ord.compare p.components q.components := rfl

instance : TransCmp Path.compare where
  eq_swap {p q} := by
    rw [compare_eq, compare_eq]
    exact OrientedOrd.eq_swap
  isLE_trans {p q r} := by
    rw [compare_eq, compare_eq, compare_eq]
    exact TransOrd.isLE_trans

/-- Paths compare as equal exactly when they denote the same file. -/
theorem compare_eq_iff_same {p q : Path} : p.compare q = .eq ↔ p.same q = true := by
  rw [same, beq_iff_eq, compare_eq]
  exact LawfulEqOrd.compare_eq_iff_eq

/-- One of two paths comes first, or they denote the same file. -/
theorem compare_isLE_total (p q : Path) :
    ((p.compare q).isLE || (q.compare p).isLE) = true := by
  have h : q.compare p = (p.compare q).swap := OrientedCmp.eq_swap
  rw [h]
  cases p.compare q <;> rfl

/-- **Sorting paths that denote different files leaves them strictly increasing.** -/
theorem pairwise_lt_mergeSort {ps : List Path}
    (h : ps.Pairwise fun p q => p.same q = false) :
    (ps.mergeSort fun p q => (p.compare q).isLE).Pairwise fun p q => p.compare q = .lt := by
  have sorted : (ps.mergeSort fun p q => (p.compare q).isLE).Pairwise
      fun p q => (p.compare q).isLE = true :=
    List.pairwise_mergeSort (fun _ _ _ => TransCmp.isLE_trans) compare_isLE_total ps
  have apart : (ps.mergeSort fun p q => (p.compare q).isLE).Pairwise
      fun p q => p.same q = false := by
    refine h.perm (List.mergeSort_perm ps _).symm ?_
    intro p q hpq
    rw [same, BEq.comm]
    exact hpq
  refine sorted.imp₂ ?_ apart
  intro p q hle hne
  cases e : p.compare q with
  | lt => rfl
  | eq =>
    rw [compare_eq_iff_same.1 e] at hne
    cases hne
  | gt =>
    rw [e] at hle
    cases hle

end LintHost.Path
