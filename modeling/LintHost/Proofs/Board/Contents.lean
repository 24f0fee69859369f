/-
LintHost/Proofs/Board/Contents.lean

What a board holds after everything on it has been replaced.  No file is listed
twice and none without diagnostics (`WellFormed`), which setting a file preserves,
so that an entry and a look-up tell the same (`WellFormed.get_eq`).

Main results: a board made from a list of diagnostics shows for each file the
diagnostics of the list about it, in the order of the list (`get_ofList`), and if
all files are normal it has exactly one entry for each of them
(`mem_entries_ofList`).
-/
import LintHost.Board.Basic
import LintHost.Proofs.Path.Canonical

namespace LintHost.Board

/-! ### Looking a file up -/

/-- Two spellings of a file are shown the same. -/
theorem get_congr (b : Board) {p q : Path} (h : p.same q = true) : b.get p = b.get q := by
  have hk : ∀ r : Path, r.same p = r.same q := by
    intro r
    rw [same_comm r p, same_comm r q]
    exact same_trans h
  simp only [get, hk]

theorem get_add (b : Board) (d : Diagnostic) (p : Path) :
    (b.add d).get p = b.get p ++ [d].filter fun d => d.file.same p := by
  by_cases h : d.file.same p = true
  · rw [add, ← get_congr _ h, get_set_self, get_congr _ h]
    simp [h]
  · have hp : p.same d.file = false := by
      rw [same_comm]
      simpa using h
    rw [add, get_set_of_not_same _ _ hp]
    simp [h]

theorem get_foldl_add (b : Board) (ds : List Diagnostic) (p : Path) :
    (ds.foldl add b).get p = b.get p ++ ds.filter fun d => d.file.same p := by
  induction ds generalizing b with
  | nil => simp
  | cons d ds ih =>
    rw [List.foldl_cons, ih, get_add, List.append_assoc, ← List.filter_append]
    rfl

/-- A board made from a list shows for a file what the list holds about it, in order. -/
theorem get_ofList (ds : List Diagnostic) (p : Path) :
    (ofList ds).get p = ds.filter fun d => d.file.same p := by
  rw [ofList, get_foldl_add]
  rfl

/-! ### Entries -/

/-- No file is listed twice and none without diagnostics. -/
structure WellFormed (b : Board) : Prop where
  apart : b.entries.Pairwise fun e f => e.1.same f.1 = false
  shown : ∀ e ∈ b.entries, e.2 ≠ []

theorem wellFormed_empty : empty.WellFormed :=
  ⟨List.Pairwise.nil, fun _ h => absurd h List.not_mem_nil⟩

/-- Putting a file up adds no other entry. -/
theorem of_mem_put {file : Path} {ds : List Diagnostic} {entries : List (Path × List Diagnostic)}
    {e : Path × List Diagnostic} (h : e ∈ put file ds entries) :
    e ∈ entries ∨ e = (file, ds) ∨ (e.2 = ds ∧ ∃ old, (e.1, old) ∈ entries) := by
  induction entries with
  | nil =>
    rw [put, List.mem_singleton] at h
    exact .inr (.inl h)
  | cons f rest ih =>
    obtain ⟨q, old⟩ := f
    rw [put] at h
    split at h
    · rcases List.mem_cons.1 h with rfl | h
      · exact .inr (.inr ⟨rfl, old, List.mem_cons_self⟩)
      · exact .inl (List.mem_cons_of_mem _ h)
    · rcases List.mem_cons.1 h with rfl | h
      · exact .inl List.mem_cons_self
      · rcases ih h with h | h | ⟨hd, old', h⟩
        · exact .inl (List.mem_cons_of_mem _ h)
        · exact .inr (.inl h)
        · exact .inr (.inr ⟨hd, old', List.mem_cons_of_mem _ h⟩)

theorem pairwise_put {file : Path} {ds : List Diagnostic}
    {entries : List (Path × List Diagnostic)}
    (h : entries.Pairwise fun e f => e.1.same f.1 = false) :
    (put file ds entries).Pairwise fun e f => e.1.same f.1 = false := by
  induction entries with
  | nil => exact List.pairwise_singleton _ _
  | cons e rest ih =>
    obtain ⟨p, old⟩ := e
    obtain ⟨hp, hr⟩ := List.pairwise_cons.1 h
    rw [put]
    split
    · exact List.pairwise_cons.2 ⟨hp, hr⟩
    · next hne =>
      refine List.pairwise_cons.2 ⟨?_, ih hr⟩
      intro f hf
      rcases of_mem_put hf with hf | rfl | ⟨-, old', hf⟩
      · exact hp f hf
      · simpa using hne
      · exact hp (f.1, old') hf

theorem WellFormed.set {b : Board} (hb : b.WellFormed) (file : Path) (ds : List Diagnostic) :
    (b.set file ds).WellFormed := by
  unfold Board.set
  split
  · refine ⟨hb.apart.filter _, ?_⟩
    intro e he
    exact hb.shown e (List.mem_filter.1 he).1
  · next hds =>
    refine ⟨pairwise_put hb.apart, ?_⟩
    intro e he
    rcases of_mem_put he with he | rfl | ⟨hd, -⟩
    · exact hb.shown e he
    · exact hds
    · rw [hd]
      exact hds

theorem WellFormed.foldl_add {b : Board} (hb : b.WellFormed) (ds : List Diagnostic) :
    (ds.foldl add b).WellFormed := by
  induction ds generalizing b with
  | nil => exact hb
  | cons d ds ih => exact ih (hb.set _ _)

theorem wellFormed_ofList (ds : List Diagnostic) : (ofList ds).WellFormed :=
  wellFormed_empty.foldl_add ds

/-- The diagnostics of an entry are those that a look-up of its file finds. -/
theorem WellFormed.get_eq {b : Board} (hb : b.WellFormed) {p : Path} {ds : List Diagnostic}
    (h : (p, ds) ∈ b.entries) : b.get p = ds := by
  have hs : p.same p = true := by simp [Path.same]
  obtain ⟨before, after, he⟩ := List.append_of_mem h
  have ha := hb.apart
  rw [he, List.pairwise_append] at ha
  have hn : before.find? (fun e => e.1.same p) = none := by
    rw [List.find?_eq_none]
    intro e hm
    simp [ha.2.2 e hm _ List.mem_cons_self]
  rw [get, he, List.find?_append, hn]
  simp [hs]

/-- An entry stands under the spelling that one of its diagnostics has. -/
theorem file_of_mem_foldl_add {b : Board} {ds : List Diagnostic} {e : Path × List Diagnostic}
    (h : e ∈ (ds.foldl add b).entries) :
    e.1 ∈ ds.map (·.file) ∨ e.1 ∈ b.entries.map (·.1) := by
  induction ds generalizing b with
  | nil => exact .inr (List.mem_map_of_mem h)
  | cons d ds ih =>
    rcases ih h with hm | hm
    · exact .inl (List.mem_cons_of_mem _ hm)
    · obtain ⟨f, hf, hfe⟩ := List.mem_map.1 hm
      rw [add, Board.set, if_neg (by simp)] at hf
      rw [← hfe]
      rcases of_mem_put hf with hf | rfl | ⟨-, old, hf⟩
      · exact .inr (List.mem_map_of_mem hf)
      · exact .inl List.mem_cons_self
      · exact .inr (List.mem_map.2 ⟨_, hf, rfl⟩)

theorem file_of_mem_ofList {ds : List Diagnostic} {e : Path × List Diagnostic}
    (h : e ∈ (ofList ds).entries) : e.1 ∈ ds.map (·.file) := by
  rcases file_of_mem_foldl_add h with h | h
  · exact h
  · exact absurd h List.not_mem_nil

/-- **A board made from diagnostics about normal files** has one entry for each of these files,
with the diagnostics about it in their order. -/
theorem mem_entries_ofList {ds : List Diagnostic} (hn : ∀ d ∈ ds, d.file.IsNormal) {p : Path}
    {xs : List Diagnostic} :
    (p, xs) ∈ (ofList ds).entries ↔
      p ∈ ds.map (·.file) ∧ xs = ds.filter fun d => d.file = p := by
  have normal : ∀ q ∈ ds.map (·.file), q.IsNormal := by
    intro q hq
    obtain ⟨d, hd, rfl⟩ := List.mem_map.1 hq
    exact hn d hd
  have shown : p ∈ ds.map (·.file) → (ofList ds).get p = ds.filter fun d => d.file = p := by
    intro hp
    rw [get_ofList]
    refine List.filter_congr fun d hd => ?_
    rw [Bool.eq_iff_iff, (hn d hd).same_iff_eq (normal p hp), decide_eq_true_eq]
  constructor
  · intro h
    have hp : p ∈ ds.map (·.file) := file_of_mem_ofList h
    exact ⟨hp, by rw [← shown hp, (wellFormed_ofList ds).get_eq h]⟩
  · rintro ⟨hp, rfl⟩
    obtain ⟨d, hd, rfl⟩ := List.mem_map.1 hp
    -- something is found for the file, and it stands under the file's only normal spelling
    have hne : (ofList ds).get d.file ≠ [] := by
      rw [shown hp]
      exact List.ne_nil_of_mem (List.mem_filter.2 ⟨hd, by simp⟩)
    rcases e : (ofList ds).entries.find? (fun e => e.1.same d.file) with - | ⟨q, xs⟩
    · simp [get, e] at hne
    · have hm := List.mem_of_find?_eq_some e
      have hs : q.same d.file = true := by simpa using List.find?_some e
      have hq : q = d.file := ((normal q (file_of_mem_ofList hm)).same_iff_eq (normal _ hp)).1 hs
      rw [hq] at hm
      rw [← shown hp, (wellFormed_ofList ds).get_eq hm]
      exact hm

end LintHost.Board
