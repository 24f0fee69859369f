/-
LintHost/Proofs/Scanner/Spellings.lean

The spellings of one file.  A scanner compares files by their normal forms wherever it
compares them: when a finding names a file that is open (`placed?_of_opened`), when a file
is handed over (`Sound.clearFile_iff`), and among the files that it shows.  Since a normal
form stands for what a path denotes from everywhere, each of these identifies two spellings
exactly if they denote the same file.

Main result: normal forms are complete, they can be taken before joining, they are what
they look like, and a scanner tells files apart by them and by nothing else
(`normal_forms_tell_files_apart`).
-/
import LintHost.Proofs.Path.Walks
import LintHost.Proofs.Scanner.Sound

namespace LintHost.Scanner

open LintHost.Path

/-- Normal forms that lead to the same places are equal. -/
theorem sameFile_iff_eq {p q : Path} (hp : p.IsNormal) (hq : q.IsNormal) :
    p.SameFile q ↔ p = q := by
  rw [← normalize_eq_iff_sameFile, hp.normalize_eq, hq.normalize_eq]

theorem normalize_sameFile (p : Path) : p.normalize.SameFile p :=
  walk_normalize p

/-- Among normal forms a look-up finds what denotes the same file. -/
theorem contains_iff_sameFile {paths : List Path} (hs : ∀ p ∈ paths, p.IsNormal) (file : Path) :
    contains paths file.normalize = true ↔ ∃ p ∈ paths, p.SameFile file := by
  rw [contains_iff_mem hs file.isNormal_normalize]
  constructor
  · exact fun h => ⟨_, h, normalize_sameFile file⟩
  · rintro ⟨p, hp, hsame⟩
    rw [← normalize_eq_iff_sameFile, (hs p hp).normalize_eq] at hsame
    rwa [← hsame]

/-- Among the normal forms of some paths a look-up finds what one of the paths denotes. -/
theorem contains_normalize_iff (paths : List Path) (file : Path) :
    contains (paths.map normalize) file.normalize = true ↔ ∃ p ∈ paths, p.SameFile file := by
  rw [contains_iff_mem (fun _ h => isNormal_of_mem_normalize h) file.isNormal_normalize,
    List.mem_map]
  exact exists_congr fun p => and_congr_right fun _ => normalize_eq_iff_sameFile

/-- A finding below a root is left out exactly if it names one of the open files. -/
theorem placed?_of_opened (policy : Policy) (root : Path) (opened : List Path) (f : Finding) :
    placed? policy root (opened.map normalize) f = f.filename.bind fun name =>
      if ∃ p ∈ opened, p.SameFile (root.join ⟨name⟩) then none
      else f.toDiagnostic? policy (root.join ⟨name⟩).normalize 0 := by
  simp only [placed?, contains_normalize_iff, Option.bind_eq_bind]

variable {s : Scanner}

/-- A file that is handed over was shown exactly if one of the files shown denotes it. -/
theorem Sound.clearFile_iff (hs : s.Sound) (file : Path) :
    (s.clearFile file).1 = true ↔ ∃ p ∈ s.trackedFiles, p.SameFile file := by
  simp only [mem_trackedFiles, ← contains_iff_sameFile hs.tracked]
  cases h : contains s.tracked file.normalize <;> simp [clearFile, h]

/-- No file is shown under two spellings. -/
theorem Sound.pairwise_not_sameFile (hs : s.Sound) :
    s.trackedFiles.Pairwise fun p q => ¬p.SameFile q := by
  have hnodup : s.trackedFiles.Nodup := (List.mergeSort_perm _ _).nodup_iff.2 hs.nodup
  refine hnodup.imp_of_mem fun {p q} hp hq hne => ?_
  rw [mem_trackedFiles] at hp hq
  rwa [sameFile_iff_eq (hs.tracked p hp) (hs.tracked q hq)]

/-- **Normal forms tell files apart.**  Two paths have the same one exactly if no absolute directory
in front of them tells them apart; it can be taken before joining; it is its own normal form,
has no `.`, has a `..` only in front of everything else in a relative path, and is absolute if
the path is.  So two paths have the same one exactly if they denote the same file from everywhere,
and a scanner takes two spellings for one file exactly then: in what it leaves out since it is
open, in what it shows, and in what it hands over. -/
theorem normal_forms_tell_files_apart :
    (∀ p q : Path, p.normalize = q.normalize ↔
      ∀ base : Path, base.isAbsolute = true →
        (base.join p).normalize = (base.join q).normalize) ∧
    (∀ p q : Path, (p.join q).normalize = (p.normalize.join q.normalize).normalize) ∧
    (∀ p : Path, p.normalize.normalize = p.normalize ∧ .here ∉ p.normalize.components ∧
      (∃ (ups : Nat) (names : List RawText),
        p.normalize.components = ground p.isAbsolute ups ++ names.map .name) ∧
      p.normalize.isAbsolute = p.isAbsolute) ∧
    (∀ p q : Path, p.normalize = q.normalize ↔ p.SameFile q) ∧
    (∀ (policy : Policy) (root : Path) (opened : List Path) (f : Finding),
      placed? policy root (opened.map normalize) f
        = f.filename.bind fun name =>
          if ∃ p ∈ opened, p.SameFile (root.join ⟨name⟩) then none
          else f.toDiagnostic? policy (root.join ⟨name⟩).normalize 0) ∧
    ∀ (settings : Settings) (events : List Event),
      let s := ({ settings } : Scanner).after events
      (s.trackedFiles.Pairwise fun p q => ¬p.SameFile q) ∧
        ∀ file, (s.clearFile file).1 = true ↔ ∃ p ∈ s.trackedFiles, p.SameFile file := by
  refine ⟨fun p q => normalize_eq_iff_join, normalize_join, ?_,
    fun p q => normalize_eq_iff_sameFile, placed?_of_opened, ?_⟩
  · intro p
    refine ⟨p.isNormal_normalize.normalize_eq, ?_, exists_components_normalize p,
      isAbsolute_normalize p⟩
    rw [components_normalize]
    exact here_not_mem_normalSteps _
  · intro settings events s
    have hs : s.Sound := sound_after settings events
    exact ⟨hs.pairwise_not_sameFile, hs.clearFile_iff⟩

end LintHost.Scanner
