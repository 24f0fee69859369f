/-
LintHost/Proofs/Board/Snapshots.lean

Boards after any calls.  What a board holds for a file is what was last written for it:
by the newest call for this file, unless everything has been replaced or taken down
since (`lastWritten`, `get_applyAll`).  A snapshot is strictly ordered, the files with
an error first and otherwise by path (`pairwise_before_mergeSort`).  As no two entries
are for one file, no two of them are equal in this order, and so the order in which
they are stored leaves no trace in it (`forall₂_alike_mergeSort`).

Main result: after any calls the snapshot has exactly what was last written for each
file, once and in this order; calls that leave the same behind for every file give the
same snapshot, in whatever order the entries are stored (`snapshot_is_last_written`).
-/
import LintHost.Proofs.Board.Contents
import LintHost.Proofs.Path.Order
import Mathlib.Data.List.Forall2

namespace LintHost.Board

/-- What a board holds for one file. -/
abbrev Shown := Path × List Diagnostic

/-! ### What was last written -/

/-- The diagnostics that were last written for a file, by calls of which the newest one stands
first. -/
def lastWritten (file : Path) : List Notice → List Diagnostic
  | [] => []
  | .set p ds :: earlier => if p.same file then ds else lastWritten file earlier
  | .setAll ds _ :: _ => ds.filter fun d => d.file.same file
  | .clear :: _ => []

theorem WellFormed.apply {b : Board} (hb : b.WellFormed) (call : Notice) :
    (b.apply call).WellFormed := by
  cases call with
  | set file ds => exact hb.set file ds
  | setAll ds _ => exact wellFormed_ofList ds
  | clear => exact wellFormed_empty

theorem wellFormed_applyAll (calls : List Notice) : (empty.applyAll calls).WellFormed := by
  suffices ∀ b : Board, b.WellFormed → (b.applyAll calls).WellFormed from
    this empty wellFormed_empty
  induction calls with
  | nil => exact fun _ hb => hb
  | cons call calls ih => exact fun _ hb => ih _ (hb.apply call)

/-- A board holds for each file what was last written for it. -/
theorem get_applyAll (calls : List Notice) (file : Path) :
    (empty.applyAll calls).get file = lastWritten file calls.reverse := by
  suffices ∀ newest, (empty.applyAll newest.reverse).get file = lastWritten file newest by
    simpa using this calls.reverse
  intro newest
  induction newest with
  | nil => rfl
  | cons call earlier ih =>
    have hlast : empty.applyAll (call :: earlier).reverse
        = (empty.applyAll earlier.reverse).apply call := by
      rw [List.reverse_cons, applyAll, List.foldl_append]
      rfl
    rw [hlast]
    cases call with
    | set p ds =>
      rw [lastWritten, ← ih]
      by_cases h : p.same file = true
      · rw [if_pos h]
        show (Board.set _ p ds).get file = ds
        rw [← get_congr _ h, get_set_self]
      · rw [if_neg h]
        refine get_set_of_not_same _ ds ?_
        rw [same_comm]
        simpa using h
    | setAll ds showProject => exact get_ofList ds file
    | clear => rfl

/-! ### Entries -/

variable {b : Board} {file : Path} {ds : List Diagnostic}

/-- Something is held for a file exactly if it has an entry. -/
theorem WellFormed.exists_entry_iff (hb : b.WellFormed) :
    (∃ p, p.same file = true ∧ (p, ds) ∈ b.entries) ↔ ds ≠ [] ∧ ds = b.get file := by
  constructor
  · rintro ⟨p, hp, hm⟩
    exact ⟨hb.shown _ hm, by rw [← get_congr b hp, hb.get_eq hm]⟩
  · rintro ⟨hne, rfl⟩
    rcases e : b.entries.find? (fun e => e.1.same file) with - | ⟨p, ds⟩
    · simp [get, e] at hne
    · have hg : b.get file = ds := by simp [get, e]
      rw [hg]
      exact ⟨p, by simpa using List.find?_some e, List.mem_of_find?_eq_some e⟩

theorem WellFormed.entries_eq_nil_iff (hb : b.WellFormed) :
    b.entries = [] ↔ ∀ p, b.get p = [] := by
  constructor
  · intro h p
    simp [get, h]
  · intro h
    rw [List.eq_nil_iff_forall_not_mem]
    rintro ⟨p, ds⟩ hm
    exact hb.shown _ hm ((hb.get_eq hm).symm.trans (h p))

/-- Nothing is shown as the status exactly if nothing is held. -/
theorem status_eq_empty_iff (b : Board) : b.status = "" ↔ b.entries = [] := by
  unfold status
  split
  · next h => simp [h]
  · next h =>
    refine iff_of_false (fun e => ?_) h
    have hlist := congrArg String.toList e
    simp only [String.toList_append] at hlist
    simp at hlist

/-! ### The order of entries -/

/-- Whether an entry comes before another one: it has an error and the other has none, or both
agree in this and its path comes first. -/
def Before (e f : Shown) : Prop :=
  (hasError e.2 = true ∧ hasError f.2 = false) ∨
    (hasError e.2 = hasError f.2 ∧ e.1.compare f.1 = .lt)

theorem precedes_total (e f : Shown) : (precedes e f || precedes f e) = true := by
  unfold precedes
  by_cases h : hasError e.2 = hasError f.2
  · rw [if_pos h, if_pos h.symm]
    exact Path.compare_isLE_total e.1 f.1
  · rw [if_neg h, if_neg (Ne.symm h)]
    cases he : hasError e.2 <;> cases hf : hasError f.2 <;> simp_all

theorem precedes_trans (e f g : Shown) (hef : precedes e f = true) (hfg : precedes f g = true) :
    precedes e g = true := by
  unfold precedes at *
  have trans : (e.1.compare f.1).isLE → (f.1.compare g.1).isLE → (e.1.compare g.1).isLE :=
    Std.TransCmp.isLE_trans
  cases he : hasError e.2 <;> cases hf : hasError f.2 <;> cases hg : hasError g.2 <;> simp_all

/-- Of two entries for different files the one that precedes comes before. -/
theorem before_of_precedes {e f : Shown} (h : precedes e f = true)
    (hne : e.1.same f.1 = false) : Before e f := by
  unfold precedes at h
  split at h
  · next herror =>
    refine .inr ⟨herror, ?_⟩
    cases hc : e.1.compare f.1 with
    | lt => rfl
    | eq =>
      rw [Path.compare_eq_iff_same.1 hc] at hne
      cases hne
    | gt =>
      rw [hc] at h
      cases h
  · next herror =>
    refine .inl ⟨h, ?_⟩
    rw [h] at herror
    simpa using Ne.symm herror

/-- **Sorted entries for different files are strictly ordered.** -/
theorem pairwise_before_mergeSort {es : List Shown}
    (apart : es.Pairwise fun e f => e.1.same f.1 = false) :
    (es.mergeSort precedes).Pairwise Before := by
  have sorted : (es.mergeSort precedes).Pairwise fun e f => precedes e f = true :=
    List.pairwise_mergeSort precedes_trans precedes_total es
  have apart' : (es.mergeSort precedes).Pairwise fun e f => e.1.same f.1 = false := by
    refine apart.perm (List.mergeSort_perm es _).symm fun {e f} h => ?_
    rw [same_comm]
    exact h
  exact sorted.imp₂ (fun _ _ => before_of_precedes) apart'

/-- Entries that are stored in order are shown as they are stored. -/
theorem snapshot_eq_entries {b : Board} (h : b.entries.Pairwise fun e f => precedes e f = true) :
    b.snapshot = b.entries :=
  List.mergeSort_of_pairwise h

/-! ### The order in which entries are stored -/

/-- Whether two entries say the same about one file. -/
def Alike (e f : Shown) : Prop :=
  e.1.same f.1 = true ∧ e.2 = f.2

/-- What an entry says, whatever the spelling of its path. -/
def content (e : Shown) : List Path.Component × List Diagnostic :=
  (e.1.components, e.2)

theorem alike_iff {e f : Shown} : Alike e f ↔ content e = content f := by
  simp [Alike, content, Path.same]

/-- The order of entries in terms of what they say. -/
def ContentBefore (k l : List Path.Component × List Diagnostic) : Prop :=
  (hasError k.2 = true ∧ hasError l.2 = false) ∨
    (hasError k.2 = hasError l.2 ∧ compare k.1 l.1 = .lt)

theorem ContentBefore.asymm {k l : List Path.Component × List Diagnostic}
    (h : ContentBefore k l) : ¬ ContentBefore l k := by
  rcases h with ⟨hk, hl⟩ | ⟨herror, hlt⟩
  · rintro (⟨hl', -⟩ | ⟨herror, -⟩)
    · simp [hl] at hl'
    · simp [hk, hl] at herror
  · rintro (⟨hl, hk⟩ | ⟨-, hlt'⟩)
    · simp [hl, hk] at herror
    · exact absurd hlt' (Std.OrientedCmp.not_lt_of_lt hlt)

theorem nodup_map_content {es : List Shown}
    (apart : es.Pairwise fun e f => e.1.same f.1 = false) : (es.map content).Nodup := by
  refine List.pairwise_map.2 (apart.imp fun {e f} h he => ?_)
  rw [(alike_iff.2 he).1] at h
  cases h

/-- **Entries that say the same are shown in the same order**, in whatever order they are stored. -/
theorem forall₂_alike_mergeSort {es fs : List Shown}
    (hes : es.Pairwise fun e f => e.1.same f.1 = false)
    (hfs : fs.Pairwise fun e f => e.1.same f.1 = false)
    (h : ∀ k, k ∈ es.map content ↔ k ∈ fs.map content) :
    List.Forall₂ Alike (es.mergeSort precedes) (fs.mergeSort precedes) := by
  have sorted : ∀ {es : List Shown}, (es.Pairwise fun e f => e.1.same f.1 = false) →
      ((es.mergeSort precedes).map content).Pairwise ContentBefore :=
    fun apart => List.pairwise_map.2 (pairwise_before_mergeSort apart)
  have perm : ((es.mergeSort precedes).map content).Perm ((fs.mergeSort precedes).map content) := by
    have hperm := (List.perm_ext_iff_of_nodup (nodup_map_content hes) (nodup_map_content hfs)).2 h
    exact ((List.mergeSort_perm es _).map _).trans
      (hperm.trans ((List.mergeSort_perm fs _).map _).symm)
  have heq : (es.mergeSort precedes).map content = (fs.mergeSort precedes).map content :=
    perm.eq_of_pairwise (fun _ _ _ _ hkl hlk => absurd hlk hkl.asymm) (sorted hes) (sorted hfs)
  have hall : List.Forall₂ (fun e f => content e = content f) (es.mergeSort precedes)
      (fs.mergeSort precedes) := by
    rw [← List.forall₂_eq_eq_eq, List.forall₂_map_left_iff, List.forall₂_map_right_iff] at heq
    exact heq
  exact hall.imp fun _ _ => alike_iff.2

theorem WellFormed.mem_map_content_iff (hb : b.WellFormed)
    {k : List Path.Component × List Diagnostic} :
    k ∈ b.entries.map content ↔
      ∃ p : Path, p.components = k.1 ∧ k.2 ≠ [] ∧ k.2 = b.get p := by
  constructor
  · intro h
    obtain ⟨⟨p, ds⟩, hm, rfl⟩ := List.mem_map.1 h
    exact ⟨p, rfl, hb.shown _ hm, (hb.get_eq hm).symm⟩
  · rintro ⟨p, hp, hget⟩
    obtain ⟨q, hq, hm⟩ := hb.exists_entry_iff.2 hget
    refine List.mem_map.2 ⟨_, hm, ?_⟩
    rw [Path.same, beq_iff_eq] at hq
    rw [content, hq, hp]

/-! ### Any calls -/

/-- **After any calls a snapshot is what was last written**, once for each file and in the order of
entries; nothing else that the calls have done is to be seen in it. -/
theorem snapshot_is_last_written (calls : List Notice) :
    let b := empty.applyAll calls
    let held := fun p => lastWritten p calls.reverse
    (∀ p ds, (∃ q, q.same p = true ∧ (q, ds) ∈ b.snapshot) ↔ ds ≠ [] ∧ ds = held p) ∧
    (b.snapshot.Pairwise fun e f => e.1.same f.1 = false) ∧
    (∀ e ∈ b.snapshot, e.2 ≠ []) ∧
    b.snapshot.Pairwise Before ∧
    (∀ others, (∀ p, lastWritten p others.reverse = held p) → ∀ es fs : List Shown,
      es.Perm b.entries → fs.Perm (empty.applyAll others).entries →
        List.Forall₂ Alike (es.mergeSort precedes) (fs.mergeSort precedes)) ∧
    (b.status = "" ↔ ∀ p, held p = []) := by
  intro b held
  have hb : b.WellFormed := wellFormed_applyAll calls
  have hget : ∀ p, b.get p = held p := get_applyAll calls
  have perm : b.snapshot.Perm b.entries := List.mergeSort_perm _ _
  have symm : ∀ {e f : Shown}, e.1.same f.1 = false → f.1.same e.1 = false := by
    intro e f h
    rw [same_comm]
    exact h
  refine ⟨?_, hb.apart.perm perm.symm symm, fun e he => hb.shown e (perm.mem_iff.1 he),
    pairwise_before_mergeSort hb.apart, ?_, ?_⟩
  · intro p ds
    simp only [perm.mem_iff]
    rw [hb.exists_entry_iff, hget]
  · intro others hsame es fs hes hfs
    have ho := wellFormed_applyAll others
    refine forall₂_alike_mergeSort (hb.apart.perm hes.symm symm) (ho.apart.perm hfs.symm symm) ?_
    intro k
    rw [(hes.map content).mem_iff, (hfs.map content).mem_iff, hb.mem_map_content_iff,
      ho.mem_map_content_iff]
    simp only [hget, get_applyAll, hsame]
  · rw [status_eq_empty_iff, hb.entries_eq_nil_iff]
    simp only [hget]

end LintHost.Board
