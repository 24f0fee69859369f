/-
LintHost/Proofs/Command/Scanning.lean

What a scan shows on its two channels: the files of the project, and the files that are
given as open.  The project's files stand under their normal forms, and the scanner works
around the normal forms of the open ones, so the channels have no file in common.  The
open files stand under their absolute forms, in which a `..` is kept.  So a file that is
given twice in spellings that differ in a `..` has two entries (`shown_twice_through_up`).

Main result: that is the only way for a file to be shown twice
(`scan_shows_files_once`).
-/
import LintHost.Proofs.Board.Snapshots
import LintHost.Proofs.Path.Absolute
import LintHost.Proofs.Scanner.Launching
import LintHost.Proofs.Scanner.OpenFiles
import Mathlib.Data.List.Pairwise

namespace LintHost.Command

open Analyzer Storage

/-! ### The two channels -/

/-- What a scan holds in the end, before it is shown: the files of the project and the open
ones. -/
def scanned (at' : Setting) (s : Settings) (roots opened : List Path) :
    Attempt Chain (Board × Board) := do
  let absolute := Path.absolute at'.directory
  let roots := if roots = [] then [at'.directory] else roots.map absolute
  let opened := opened.map absolute
  let step ← ExceptT.lift (follow roots.length (Scanner.start { settings := s } roots opened))
  match step.progress with
  | .failed => throw ["project scan failed (rerun with -v for details)"]
  | _ => lintOpened at' s opened step.scanner (Board.empty.applyAll step.notices) Board.empty

/-- A scan shows what it holds in the end. -/
theorem scan_eq (at' : Setting) (s : Settings) (roots opened : List Path) (json : Bool) :
    scan at' s roots opened json
      = scanned at' s roots opened >>= fun held => .mk (.done (shownScan held.1 held.2 json)) := by
  unfold scan scanned
  simp only [attempt_bind_assoc]
  congr 1
  funext step
  cases step.progress <;> rfl

/-! ### The open files -/

variable {at' : Setting} {s : Settings} {opened : List Path} {b : Board}

theorem path_of_readDocument {file : Path} {d : Document}
    (h : (readDocument at' file).run.ComesTo (.ok d)) :
    d.path = Path.absolute at'.directory file := by
  obtain ⟨text, -, h⟩ := comesTo_attempt_bind_iff.1 h
  have h : Except.ok (ε := Chain) d = .ok ⟨Path.absolute at'.directory file, text⟩ := h
  rw [Except.ok.inj h]

theorem comesTo_asking_iff {α : Type} {c : Consult (Except Failure α)} {a : α} :
    (asking c).run.ComesTo (.ok a) ↔ (Plan.consult c).ComesTo (.ok a) := by
  show (Plan.consult c >>= fun r => Plan.done (r.mapError ofFailure)).ComesTo (.ok a) ↔ _
  rw [comesTo_bind_iff]
  constructor
  · rintro ⟨r, hr, h⟩
    cases r with
    | error failure => cases h
    | ok a' =>
      have h : Except.ok (ε := Chain) a = .ok a' := h
      rw [Except.ok.inj h]
      exact hr
  · intro h
    exact ⟨.ok a, h, rfl⟩

/-- The diagnostics that a document is reported with are about it. -/
theorem file_of_report {d : Document} {ds : List Diagnostic}
    (h : (Plan.consult (d.report s)).ComesTo (.ok ds)) : ∀ x ∈ ds, x.file = d.path := by
  unfold Document.report at h
  split at h
  · have h : Except.ok (ε := Failure) ds = .ok [] := h
    rw [Except.ok.inj h]
    exact fun _ hx => absurd hx List.not_mem_nil
  · obtain ⟨reply, h⟩ := h
    cases reply with
    | error failure => cases h
    | ok output =>
      have h : Except.ok ds = Document.diagnosticsOf s d.path _ output := h
      unfold Document.diagnosticsOf at h
      split at h
      · cases h
      · intro x hx
        rw [Except.ok.inj h] at hx
        obtain ⟨f, -, hf⟩ := List.mem_filterMap.1 hx
        exact Finding.file_of_toDiagnostic? hf

/-- A board of open files: each entry is about one of them, and holds what one report of it gave. -/
structure Reported (s : Settings) (opened : List Path) (b : Board) : Prop where
  wellFormed : b.WellFormed
  entry : ∀ e ∈ b.entries, ∃ file ∈ opened, ∃ d : Document,
    e.1.same file = true ∧ e.1.same d.path = true ∧ (Plan.consult (d.report s)).ComesTo (.ok e.2)

theorem reported_empty (s : Settings) (opened : List Path) : Reported s opened Board.empty where
  wellFormed := Board.wellFormed_empty
  entry := fun _ h => absurd h List.not_mem_nil

/-- One more report. -/
theorem Reported.set (h : Reported s opened b) {file : Path} {d : Document} {ds : List Diagnostic}
    (hfile : file ∈ opened) (hd : d.path.same file = true)
    (hr : (Plan.consult (d.report s)).ComesTo (.ok ds)) : Reported s opened (b.set d.path ds) where
  wellFormed := h.wellFormed.set d.path ds
  entry := by
    intro e he
    have hb := h.wellFormed.set d.path ds
    have hget : (b.set d.path ds).get e.1 = e.2 := hb.get_eq he
    by_cases hsame : e.1.same d.path = true
    · rw [Board.get_congr _ hsame, Board.get_set_self] at hget
      rw [← hget]
      exact ⟨file, hfile, d, (Board.same_trans hsame).trans hd, hsame, hr⟩
    · -- an entry for another file was there before, under some spelling of its path
      rw [Board.get_set_of_not_same _ _ (by simpa using hsame)] at hget
      obtain ⟨p, hp, hm⟩ := h.wellFormed.exists_entry_iff.2 ⟨hb.shown e he, hget.symm⟩
      obtain ⟨file', hfile', d', hsame', hd', hr'⟩ := h.entry _ hm
      exact ⟨file', hfile', d', (Board.same_trans hp).symm.trans hsame',
        (Board.same_trans hp).symm.trans hd', hr'⟩

/-- **Linting the open files** leaves the project's files alone, if the scanner avoids the open
ones. -/
theorem comesTo_lintOpened (hdir : at'.directory.isAbsolute = true) {given files : List Path}
    {scanner : Scanner} (hs : scanner.Avoids (opened.map Path.normalize))
    (hopened : opened = given.map (Path.absolute at'.directory)) (hfiles : files ⊆ opened)
    (hb : Reported s opened b) {project project' b' : Board}
    (h : (lintOpened at' s files scanner project b).run.ComesTo (.ok (project', b'))) :
    project' = project ∧ Reported s opened b' := by
  induction files generalizing b with
  | nil =>
    have h : Except.ok (ε := Chain) (project', b') = .ok (project, b) := h
    obtain ⟨rfl, rfl⟩ := Prod.mk.inj (Except.ok.inj h)
    exact ⟨rfl, hb⟩
  | cons file files ih =>
    have hfile : file ∈ opened := hfiles List.mem_cons_self
    unfold lintOpened at h
    rw [hs.clearFile (List.mem_map_of_mem hfile)] at h
    obtain ⟨d, hd, h⟩ := comesTo_attempt_bind_iff.1 h
    obtain ⟨ds, hds, h⟩ := comesTo_attempt_bind_iff.1 h
    -- the path of a file that is given is made absolute once more when it is read
    have hpath : d.path.same file = true := by
      rw [path_of_readDocument hd]
      rw [hopened] at hfile
      obtain ⟨p, -, rfl⟩ := List.mem_map.1 hfile
      exact Path.same_absolute_absolute hdir p
    exact ih (fun p hp => hfiles (List.mem_cons_of_mem _ hp))
      (hb.set hfile hpath (comesTo_asking_iff.1 hds)) h

/-! ### Both channels together -/

/-- What a scan comes to: diagnostics about normal files that are not open, and reports of the open
ones. -/
theorem comesTo_scanned (hdir : at'.directory.isAbsolute = true) {roots given : List Path}
    (hopened : opened = given.map (Path.absolute at'.directory)) {project buffers : Board}
    (h : (scanned at' s roots given).run.ComesTo (.ok (project, buffers))) :
    (∃ ds, project = Board.ofList ds ∧ Scanner.Clear (opened.map Path.normalize) ds) ∧
      Reported s opened buffers := by
  unfold scanned at h
  obtain ⟨step, hstep, h⟩ := comesTo_attempt_bind_iff.1 h
  rw [comesTo_lift_iff, ← hopened] at hstep
  rw [← hopened] at h
  have hs := Scanner.avoids_follow ((Scanner.avoids_new s _).start _) hstep
  have hlinted : (lintOpened at' s opened step.scanner (Board.empty.applyAll step.notices)
      Board.empty).run.ComesTo (.ok (project, buffers)) := by
    split at h
    · cases h
    · exact h
  obtain ⟨rfl, hb⟩ := comesTo_lintOpened hdir hs.scanner hopened (List.Subset.refl _)
    (reported_empty s opened) hlinted
  refine ⟨?_, hb⟩
  rcases hs.notices with hn | ⟨ds, hn, hclear⟩
  · exact ⟨[], by rw [hn]; rfl, fun _ hd => absurd hd List.not_mem_nil⟩
  · exact ⟨ds, by rw [hn]; rfl, hclear⟩

/-- Whether two entries are about different files, however these are spelled. -/
def Apart (e f : Board.Shown) : Prop :=
  e.1.normalize ≠ f.1.normalize

instance : DecidableRel Apart := fun _ _ => inferInstanceAs (Decidable (_ ≠ _))

theorem Apart.symm {e f : Board.Shown} (h : Apart e f) : Apart f e := Ne.symm h

instance : Std.Symm Apart := ⟨fun _ _ => Apart.symm⟩

/-- The entries for the project's files have normal forms of their own, which no open file has. -/
theorem apart_of_clear {ds : List Diagnostic} (h : Scanner.Clear (opened.map Path.normalize) ds) :
    (Board.ofList ds).entries.Pairwise Apart ∧
      ∀ e ∈ (Board.ofList ds).entries, ∀ file ∈ opened, e.1.normalize ≠ file.normalize := by
  have normal : ∀ e ∈ (Board.ofList ds).entries,
      e.1.IsNormal ∧ e.1 ∉ opened.map Path.normalize := by
    intro e he
    obtain ⟨d, hd, hde⟩ := List.mem_map.1 (Board.file_of_mem_ofList he)
    rw [← hde]
    exact h d hd
  refine ⟨(Board.wellFormed_ofList ds).apart.imp_of_mem ?_, ?_⟩
  · intro e f he hf hef hsame
    have hef' : e.1 = f.1 := by
      rwa [(normal e he).1.normalize_eq, (normal f hf).1.normalize_eq] at hsame
    rw [hef', Path.same, beq_self_eq_true] at hef
    cases hef
  · intro e he file hfile hsame
    rw [(normal e he).1.normalize_eq] at hsame
    exact (normal e he).2 (hsame ▸ List.mem_map_of_mem hfile)

/-- The open files have one entry for each normal form exactly if those with something to show are
spelled alike. -/
theorem Reported.pairwise_apart_iff (h : Reported s opened b) :
    b.entries.Pairwise Apart ↔ ∀ file ∈ opened, ∀ other ∈ opened,
      b.get file ≠ [] → b.get other ≠ [] → file.normalize = other.normalize →
        file.same other = true := by
  constructor
  · intro hp file _ other _ hfile hother hnormal
    obtain ⟨p, hpf, hpm⟩ := h.wellFormed.exists_entry_iff.2 ⟨hfile, rfl⟩
    obtain ⟨q, hqo, hqm⟩ := h.wellFormed.exists_entry_iff.2 ⟨hother, rfl⟩
    have heq : (p, b.get file) = (q, b.get other) := by
      by_contra hne
      refine hp.forall hpm hqm hne ?_
      rw [Path.normalize_eq_of_same hpf, Path.normalize_eq_of_same hqo, hnormal]
    rw [(Prod.mk.inj heq).1] at hpf
    exact (Board.same_trans hpf).symm.trans hqo
  · intro hall
    refine h.wellFormed.apart.imp_of_mem ?_
    intro e f he hf hef hsame
    obtain ⟨file, hfile, -, hes, -, -⟩ := h.entry e he
    obtain ⟨other, hother, -, hfs, -, -⟩ := h.entry f hf
    have hget : ∀ {e : Board.Shown} {p : Path}, e ∈ b.entries → e.1.same p = true →
        b.get p ≠ [] := by
      intro e p he hp
      rw [← Board.get_congr b hp, h.wellFormed.get_eq he]
      exact h.wellFormed.shown e he
    rw [Path.normalize_eq_of_same hes, Path.normalize_eq_of_same hfs] at hsame
    have := hall file hfile other hother (hget he hes) (hget hf hfs) hsame
    rw [Board.same_trans hes, Board.same_comm, Board.same_trans hfs, Board.same_comm, this] at hef
    cases hef

/-- **A scan shows each file once, but for open files that are spelled with a `..`.**  Whatever is
in the files and whatever the analyzer replies, a scan that completes shows what two boards hold.
No file of the project has two entries, and no open file has one there; an open file has an entry
for each of its spellings with steps of its own, and it holds what one report of the file gave.  So
no two entries of both boards have paths with the same normal form exactly if no file is given in
two spellings with different steps and something to show for both; and this is so if no `..` is
left in what is given. -/
theorem scan_shows_files_once (at' : Setting) (s : Settings) (roots given : List Path)
    (hdir : at'.directory.isAbsolute = true) :
    (∀ json, scan at' s roots given json
      = scanned at' s roots given >>= fun held => .mk (.done (shownScan held.1 held.2 json))) ∧
    ∀ project buffers, (scanned at' s roots given).run.ComesTo (.ok (project, buffers)) →
      let opened := given.map (Path.absolute at'.directory)
      let entries := project.snapshot ++ buffers.snapshot
      project.snapshot.Pairwise Apart ∧
      (∀ e ∈ project.snapshot, ∀ file ∈ opened, e.1.normalize ≠ file.normalize) ∧
      (buffers.snapshot.Pairwise fun e f => e.1.same f.1 = false) ∧
      (∀ e ∈ buffers.snapshot, ∃ file ∈ opened, ∃ d : Document, e.1.same file = true ∧
        e.1.same d.path = true ∧ (Plan.consult (d.report s)).ComesTo (.ok e.2)) ∧
      (∀ e ∈ entries, ∀ d ∈ e.2, d.file.same e.1 = true) ∧
      (entries.Pairwise Apart ↔ ∀ file ∈ opened, ∀ other ∈ opened,
        buffers.get file ≠ [] → buffers.get other ≠ [] → file.normalize = other.normalize →
          file.same other = true) ∧
      ((∀ file ∈ opened, Path.Component.up ∉ file.components) → entries.Pairwise Apart) := by
  refine ⟨scan_eq at' s roots given, fun project buffers h => ?_⟩
  intro opened entries
  obtain ⟨⟨ds, rfl, hclear⟩, hb⟩ := comesTo_scanned hdir rfl h
  obtain ⟨hproject, hapart⟩ := apart_of_clear hclear
  have perm : ∀ b : Board, b.snapshot.Perm b.entries := fun b => List.mergeSort_perm _ _
  have hproject' : (Board.ofList ds).snapshot.Pairwise Apart :=
    hproject.perm (perm _).symm Apart.symm
  have hiff : entries.Pairwise Apart ↔ buffers.entries.Pairwise Apart := by
    rw [List.pairwise_append, (perm buffers).pairwise_iff Apart.symm]
    refine ⟨fun h => h.2.1, fun h => ⟨hproject', h, fun e he f hf => ?_⟩⟩
    obtain ⟨file, hfile, -, hsame, -, -⟩ := hb.entry f ((perm _).mem_iff.1 hf)
    rw [Apart, Path.normalize_eq_of_same hsame]
    exact hapart e ((perm _).mem_iff.1 he) file hfile
  refine ⟨hproject', fun e he => hapart e ((perm _).mem_iff.1 he), ?_, ?_, ?_, ?_, ?_⟩
  · refine hb.wellFormed.apart.perm (perm _).symm fun {e f} h => ?_
    rw [Board.same_comm]
    exact h
  · exact fun e he => hb.entry e ((perm _).mem_iff.1 he)
  · intro e he d hd
    rcases List.mem_append.1 he with he | he
    · have hm := (Board.mem_entries_ofList fun d hd => (hclear d hd).1).1 ((perm _).mem_iff.1 he)
      rw [hm.2, List.mem_filter, decide_eq_true_eq] at hd
      rw [hd.2, Path.same, beq_self_eq_true]
    · obtain ⟨-, -, document, -, hpath, hr⟩ := hb.entry e ((perm _).mem_iff.1 he)
      rw [file_of_report hr d hd, Board.same_comm]
      exact hpath
  · rw [hiff, hb.pairwise_apart_iff]
  · intro hup
    rw [hiff, hb.pairwise_apart_iff]
    intro file hfile other hother _ _ hnormal
    have habs : ∀ p ∈ opened, p.isAbsolute = true := by
      intro p hp
      obtain ⟨q, -, rfl⟩ := List.mem_map.1 hp
      exact Path.isAbsolute_absolute hdir q
    exact (Path.normalize_eq_iff_same (habs _ hfile) (habs _ hother) (hup _ hfile)
      (hup _ hother)).1 hnormal

/-- The entries of the two boards, if it comes to boards. -/
def held : Except Chain (Board × Board) → Option (List Board.Shown × List Board.Shown)
  | .ok (project, buffers) => some (project.entries, buffers.entries)
  | .error _ => none

theorem eq_of_held {r : Except Chain (Board × Board)} {es fs : List Board.Shown}
    (h : held r = some (es, fs)) : r = .ok (⟨es⟩, ⟨fs⟩) := by
  rcases r with chain | ⟨project, buffers⟩
  · cases h
  · obtain ⟨rfl, rfl⟩ := Prod.mk.inj (Option.some.inj h)
    rfl

/-- A file of the project, and an open one that is given in three spellings. -/
theorem scan_shows_files_once_of_spellings :
    let m := Scanner.counters [(["ws"], .directory), (["ws", "b.py"], .file [] 0o644)]
    let at' : Setting := { environment := default, directory := ⟨"/ws"⟩ }
    let given : List Path := [⟨"b.py"⟩, ⟨"./b.py"⟩, ⟨"/ws//b.py"⟩]
    let project : Board := ⟨[(⟨"/ws/a.py"⟩, [Scanner.lineTooLong "/ws/a.py"])]⟩
    let buffers : Board := ⟨[(⟨"/ws/b.py"⟩, [Scanner.lineTooLong "/ws/b.py"])]⟩
    at'.directory.isAbsolute = true ∧
      (m.run (scanned at' {} [] given).run).1 = .ok (project, buffers) ∧
      (project.snapshot ++ buffers.snapshot).Pairwise Apart := by
  intro m at' given project buffers
  have hdir : at'.directory.isAbsolute = true := by decide
  have hrun : (m.run (scanned at' {} [] given).run).1 = .ok (project, buffers) :=
    eq_of_held (by decide +kernel)
  have hup : ∀ file ∈ given.map (Path.absolute at'.directory),
      Path.Component.up ∉ file.components := by
    decide +kernel
  have hcomes := m.comesTo_run (scanned at' {} [] given).run
  rw [hrun] at hcomes
  obtain ⟨-, -, -, -, -, -, hapart⟩ :=
    (scan_shows_files_once at' {} [] given hdir).2 project buffers hcomes
  exact ⟨hdir, hrun, hapart hup⟩

/-- A file that is given once by its name and once through a directory and back is shown twice, and
its only finding is counted twice. -/
theorem shown_twice_through_up :
    let m := Scanner.counters [(["ws"], .directory), (["ws", "a.py"], .file [] 0o644),
      (["ws", "sub"], .directory)]
    let at' : Setting := { environment := default, directory := ⟨"/ws"⟩ }
    let given : List Path := [⟨"a.py"⟩, ⟨"sub/../a.py"⟩]
    let project : Board := ⟨[]⟩
    let buffers : Board := ⟨[(⟨"/ws/a.py"⟩, [Scanner.lineTooLong "/ws/a.py"]),
      (⟨"/ws/sub/../a.py"⟩, [Scanner.lineTooLong "/ws/sub/../a.py"])]⟩
    (m.run (scanned at' {} [] given).run).1 = .ok (project, buffers) ∧
      ¬ (project.snapshot ++ buffers.snapshot).Pairwise Apart ∧
      shownScan project buffers false = .ok {
        output := "/ws/a.py:1:1: error: E501 — m\n/ws/sub/../a.py:1:1: error: E501 — m\n"
        errors := "open E:2 W:0 I:0\n"
        code := 1 } := by
  intro m at' given project buffers
  have hproject : project.snapshot = project.entries := Board.snapshot_eq_entries .nil
  have hbuffers : buffers.snapshot = buffers.entries :=
    Board.snapshot_eq_entries (by decide +kernel)
  refine ⟨eq_of_held (by decide +kernel), ?_, ?_⟩
  · rw [hproject, hbuffers]
    decide +kernel
  · have hcounts : buffers.status = "E:2 W:0 I:0" := by
      simp only [Board.status, Board.count, Board.shown, hbuffers]
      decide +kernel
    have hstatus : Rendering.statusLine project buffers = "open E:2 W:0 I:0" := by
      show "open" ++ " " ++ buffers.status = _
      rw [hcounts]
      decide +kernel
    simp only [shownScan, hstatus, Board.shown, hproject, hbuffers]
    decide +kernel

end LintHost.Command
