/-
LintHost/Proofs/Scanner/Ledger.lean

A scanner and its board against a ledger of two columns: the list that was published
last, and the files that have been handed over since.  The ledger is kept by somebody
who only sees the events and what comes of them (`Ledger.record`); it knows nothing
of the files that the scanner tracks, of what each root gave, or of the scan under
way.  A file is to be shown as long as the first column names it and the second does
not (`Ledger.Shows`).

Main result: after any events, in any order, the scanner tracks exactly these files,
the board has exactly one entry for each of them, and handing a file over tells the
board something exactly if it is one of them (`run_agrees_with_ledger`).  The relation
that every event preserves is `Agrees`.
-/
import LintHost.Proofs.Board.Contents
import LintHost.Proofs.Path.Order
import LintHost.Proofs.Scanner.Sound

namespace LintHost.Scanner

/-! ### The ledger -/

/-- What was published last, unless everything has been taken down since, and what has been
handed over since. -/
structure Ledger where
  published : List Diagnostic := []
  /-- In normal form. -/
  handedOver : List Path := []

/-- What a board is told to show instead of all it shows. -/
def announced (notices : List Notice) : List Diagnostic :=
  notices.flatMap fun
    | .setAll ds _ => ds
    | _ => []

/-- The ledger after an event, by what has come of it. -/
def Ledger.record (l : Ledger) (e : Event) (r : Response) : Ledger :=
  match e with
  | .clearFile file => { l with handedOver := file.normalize :: l.handedOver }
  | .clearAll | .dispose => {}
  | _ => if r.completes then { published := announced r.notices } else l

/-- Whether a file is to be shown. -/
def Ledger.Shows (l : Ledger) (p : Path) : Prop :=
  p ∈ l.published.map (·.file) ∧ p ∉ l.handedOver

/-- The entry that a file has on the board. -/
def Ledger.entry (l : Ledger) (p : Path) : Path × List Diagnostic :=
  (p, l.published.filter fun d => d.file = p)

/-- A scanner, the board that only this scanner writes to, and the ledger. -/
structure Session where
  scanner : Scanner
  board : Board := .empty
  ledger : Ledger := {}

namespace Session

def step (w : Session) (e : Event) : Session :=
  let r := w.scanner.handle e
  { scanner := r.scanner
    board := w.board.applyAll r.notices
    ledger := w.ledger.record e r }

/-- A new scanner after some events. -/
def run (settings : Settings) (events : List Event) : Session :=
  events.foldl step { scanner := { settings } }

/-- The scanner and the board are what the ledger says. -/
structure Agrees (w : Session) : Prop where
  sound : w.scanner.Sound
  shows : ∀ p, p ∈ w.scanner.tracked ↔ w.ledger.Shows p
  board : w.board.entries.Perm (w.scanner.tracked.map w.ledger.entry)

variable {w : Session}

/-! ### One event -/

/-- An event that changes nothing of what is shown leaves a ledger with the same entries right,
if that is to show the same files. -/
theorem Agrees.of_quiet (hw : w.Agrees) {r : Response} (hs : r.scanner.Sound)
    (hq : r.Quiet w.scanner) :
    Agrees ⟨r.scanner, w.board.applyAll r.notices, w.ledger⟩ where
  sound := hs
  shows := by
    intro p
    rw [hq.tracked]
    exact hw.shows p
  board := by
    rw [hq.tracked, hq.notices]
    exact hw.board

/-- A published list is what the ledger then holds, and nothing has been handed over yet. -/
theorem agrees_publish (w : Session) (roots : List Path) {found : Findings} (hf : Tidy found) :
    Agrees
      { scanner := (w.scanner.publish roots found).scanner
        board := w.board.applyAll (w.scanner.publish roots found).notices
        ledger := { published := announced (w.scanner.publish roots found).notices } } := by
  have hp : announced (w.scanner.publish roots found).notices
      = roots.flatMap (latest found) := by simp [announced, Scanner.publish]
  have ht := tracked_publish w.scanner roots hf
  rw [hp]
  refine ⟨sound_publish w.scanner roots hf, ?_, ?_⟩
  · intro p
    rw [ht, List.mem_dedup]
    simp [Ledger.Shows]
  · show (Board.ofList (roots.flatMap (latest found))).entries.Perm _
    have nodup : (Board.ofList (roots.flatMap (latest found))).entries.Nodup := by
      refine (Board.wellFormed_ofList _).apart.imp ?_
      intro e f h he
      rw [he] at h
      simp [Path.same] at h
    have tracked : ((w.scanner.publish roots found).scanner.tracked.map
        (Ledger.entry ⟨roots.flatMap (latest found), []⟩)).Nodup := by
      rw [ht]
      exact (List.nodup_dedup _).map fun p q h => congrArg Prod.fst h
    rw [List.perm_ext_iff_of_nodup nodup tracked]
    rintro ⟨p, ds⟩
    rw [Board.mem_entries_ofList (isNormal_of_mem_published hf), ht]
    constructor
    · rintro ⟨hm, rfl⟩
      exact List.mem_map.2 ⟨p, List.mem_dedup.2 hm, rfl⟩
    · intro h
      obtain ⟨q, hm, he⟩ := List.mem_map.1 h
      obtain ⟨rfl, rfl⟩ := Prod.mk.injEq .. ▸ he
      exact ⟨List.mem_dedup.1 hm, rfl⟩

theorem Agrees.reply (hw : w.Agrees) (r : Analyzer.Reply) : (w.step (.reply r)).Agrees := by
  have hs := hw.sound.handle (.reply r)
  rcases quiet_or_publish w.scanner r with hq | ⟨scan, ds, hp, hd, he⟩
  · have hl : w.ledger.record (.reply r) (w.scanner.handle (.reply r)) = w.ledger :=
      if_neg (by simp [hq.completes])
    show Agrees ⟨_, _, w.ledger.record _ _⟩
    rw [hl]
    exact hw.of_quiet hs hq
  · have hf : Tidy ((scan.root, ds) :: scan.found) :=
      (hw.sound.pending scan hp).found.cons (hw.sound.foundBy hd)
    have hr : w.scanner.handle (.reply r)
        = Response.ofStep (w.scanner.publish scan.roots ((scan.root, ds) :: scan.found)) := by
      rw [← he]
      rfl
    show Agrees ⟨_, _, w.ledger.record _ _⟩
    rw [hr]
    exact agrees_publish w scan.roots hf

/-- Handing a file over, in terms of what is shown: the answer says whether the file was, and the
board is told only if it was. -/
theorem Agrees.clearFile_iff (hw : w.Agrees) (file : Path) :
    contains w.scanner.tracked file.normalize = true ↔ w.ledger.Shows file.normalize := by
  rw [contains_iff_mem hw.sound.tracked file.isNormal_normalize]
  exact hw.shows _

/-- A file that is handed over is the only one that is no longer to be shown. -/
theorem Agrees.shows_clearFile (hw : w.Agrees) (file p : Path) :
    (p ∈ w.scanner.tracked.filter fun p => !p.same file.normalize) ↔
      Ledger.Shows { w.ledger with handedOver := file.normalize :: w.ledger.handedOver } p := by
  rw [List.mem_filter, hw.shows]
  have hp : w.ledger.Shows p → (p.same file.normalize = true ↔ p = file.normalize) :=
    fun h => (hw.sound.tracked p ((hw.shows p).2 h)).same_iff_eq file.isNormal_normalize
  constructor
  · rintro ⟨h, hd⟩
    refine ⟨h.1, ?_⟩
    intro hm
    rcases List.mem_cons.1 hm with e | hm
    · rw [(hp h).2 e] at hd
      cases hd
    · exact h.2 hm
  · rintro ⟨h, hm⟩
    have hs : w.ledger.Shows p := ⟨h, fun hm' => hm (List.mem_cons_of_mem _ hm')⟩
    refine ⟨hs, ?_⟩
    have hne : p.same file.normalize ≠ true := by
      rw [Ne, hp hs]
      rintro rfl
      exact hm List.mem_cons_self
    simpa using hne

/-- What the board is told takes the entry of the file away, if there is one. -/
theorem Agrees.board_clearFile (hw : w.Agrees) (file : Path) :
    (w.board.applyAll (w.scanner.clearFile file).2.1).entries.Perm
      ((w.scanner.tracked.filter fun p => !p.same file.normalize).map w.ledger.entry) := by
  by_cases h : contains w.scanner.tracked file.normalize = true
  · -- both sides lose the entries under the file's spelling
    have hb : (w.board.applyAll (w.scanner.clearFile file).2.1).entries
        = w.board.entries.filter fun e => !e.1.same file.normalize := by
      simp [Scanner.clearFile, h, Board.applyAll, Board.apply, Board.set]
    rw [hb]
    refine (hw.board.filter _).trans ?_
    rw [List.filter_map]
    exact .refl _
  · -- the board is told nothing, and the file was not tracked
    have hb : (w.scanner.clearFile file).2.1 = [] := by simp [Scanner.clearFile, h]
    rw [hb, filter_of_not_contains h]
    exact hw.board

theorem Agrees.clearFile (hw : w.Agrees) (file : Path) : (w.step (.clearFile file)).Agrees := by
  have ht : (w.scanner.handle (.clearFile file)).scanner.tracked
      = w.scanner.tracked.filter fun p => !p.same file.normalize :=
    tracked_settle w.scanner (.clearFile file)
  refine ⟨hw.sound.handle (.clearFile file), ?_, ?_⟩
  · intro p
    show p ∈ (w.scanner.handle (.clearFile file)).scanner.tracked ↔ _
    rw [ht]
    exact hw.shows_clearFile file p
  · show (w.board.applyAll (w.scanner.clearFile file).2.1).entries.Perm
      ((w.scanner.handle (.clearFile file)).scanner.tracked.map w.ledger.entry)
    rw [ht]
    exact hw.board_clearFile file

/-- Every event keeps the scanner and the board to what the ledger says. -/
theorem Agrees.step (hw : w.Agrees) (e : Event) : (w.step e).Agrees := by
  have forgotten : Agrees ⟨w.scanner.clearAll.2, .empty, {}⟩ :=
    ⟨hw.sound.settle .clearAll, fun p => by simp [clearAll, Ledger.Shows], .refl _⟩
  cases e with
  | start roots opened =>
    have hq := quiet_start w.scanner roots opened
    have hl : w.ledger.record (.start roots opened) (w.scanner.handle (.start roots opened))
        = w.ledger := if_neg (by simp [hq.completes])
    show Agrees ⟨_, _, w.ledger.record _ _⟩
    rw [hl]
    exact hw.of_quiet (hw.sound.handle _) hq
  | reply r => exact hw.reply r
  | drop => exact hw.of_quiet (hw.sound.handle .drop) (quiet_drop w.scanner)
  | clearFile file => exact hw.clearFile file
  | clearAll => exact forgotten
  | dispose => exact forgotten

/-! ### Any events -/

theorem agrees_new (settings : Settings) : Agrees { scanner := { settings } } :=
  ⟨sound_new settings, fun p => by simp [Ledger.Shows], .refl _⟩

theorem Agrees.foldl_step (hw : w.Agrees) (events : List Event) :
    (events.foldl Session.step w).Agrees := by
  induction events generalizing w with
  | nil => exact hw
  | cons e events ih => exact ih (hw.step e)

end Session

/-- The files that a scanner shows something for come in strictly increasing order. -/
theorem Sound.pairwise_trackedFiles {s : Scanner} (hs : s.Sound) :
    s.trackedFiles.Pairwise fun p q => p.compare q = .lt := by
  refine Path.pairwise_lt_mergeSort ?_
  refine List.Pairwise.imp_of_mem ?_ hs.nodup
  intro p q hp hq hne
  rw [← Bool.not_eq_true, (hs.tracked p hp).same_iff_eq (hs.tracked q hq)]
  exact hne

/-- **A scanner and its board are what the ledger says**, after any events in any order. -/
theorem run_agrees_with_ledger (settings : Settings) (events : List Event) :
    let w := Session.run settings events
    w.scanner.trackedFiles.Pairwise (fun p q => p.compare q = .lt) ∧
    (∀ p, p ∈ w.scanner.trackedFiles ↔ w.ledger.Shows p) ∧
    w.board.entries.Perm (w.scanner.trackedFiles.map w.ledger.entry) ∧
    ∀ file : Path,
      let r := w.scanner.handle (.clearFile file)
      (w.ledger.Shows file.normalize →
        r.answer = .flag true ∧ r.notices = [.set file.normalize []]) ∧
      (¬ w.ledger.Shows file.normalize → r.answer = .flag false ∧ r.notices = []) := by
  intro w
  have hw : w.Agrees := (Session.agrees_new settings).foldl_step events
  refine ⟨hw.sound.pairwise_trackedFiles, ?_, ?_, ?_⟩
  · intro p
    rw [mem_trackedFiles]
    exact hw.shows p
  · exact hw.board.trans ((List.mergeSort_perm _ _).symm.map _)
  · intro file r
    constructor
    · intro h
      have hc := (hw.clearFile_iff file).2 h
      simp [r, handle, clearFile, hc]
    · intro h
      have hc : ¬ contains w.scanner.tracked file.normalize = true :=
        fun hc => h ((hw.clearFile_iff file).1 hc)
      simp [r, handle, clearFile, hc]

end LintHost.Scanner
