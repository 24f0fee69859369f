/-
LintHost/Proofs/Scanner/Completion.lean

What a completed scan publishes, exactly.  Roots are asked one after the other, and
between any two replies anything may happen that leaves the scan waiting.

Main result: a scan of different roots whose replies do not end it completes and
publishes the contributions of the roots, in the order of the roots; it counts the
diagnostics and their files, tracks as many files as it has counted, and the scanner
remembers which root contributed what until another scan completes or everything is
taken down (`scan_publishes_contributions`).
-/
import LintHost.Proofs.Scanner.Contribution

namespace LintHost.Scanner

open Analyzer

variable {s : Scanner} {roots : List Path} {turns : List Turn}

/-- The last response to a scan that gets a reply for each of its roots. -/
theorem getLast?_trace_start (hs : s.Sound) (hi : s.isScanning = false) {opened : List Path}
    (hne : roots ≠ []) (hl : turns.length = roots.length)
    (hg : ∀ t ∈ turns, goesOn t.reply = true) {cs : List (List Diagnostic)}
    (hcs : contributions (opened.map Path.normalize) s roots turns = cs) :
    let ds := roots.flatMap (latest (roots.zip cs).reverse)
    (s.trace (.start roots opened :: turns.flatMap Turn.events)).getLast? = some
      { answer := .progress (.completed (ds.map (·.file)).dedup.length ds.length)
        notices := [.setAll ds true]
        scanner := { (turns.flatMap Turn.meanwhile).foldl settle s with
          tracked := (ds.map (·.file)).dedup
          published := (roots.zip cs).reverse
          pending := none } } := by
  intro ds
  cases roots with
  | nil => exact absurd rfl hne
  | cons root left =>
    let scan : Scan := ⟨root :: left, root, left, opened.map Path.normalize, []⟩
    have hscan : scan.Sound :=
      ⟨fun _ h => isNormal_of_mem_normalize h, fun _ h => absurd h List.not_mem_nil⟩
    have hc : ({ s with pending := some scan } : Scanner).Sound := by
      refine hs.with_pending ?_
      intro scan' e
      rw [← Option.some.inj e]
      exact hscan
    have hl' : turns.length = scan.left.length + 1 := hl
    have hne' : turns.flatMap Turn.events ≠ [] := by
      cases turns with
      | nil => cases hl
      | cons t turns => simp [Turn.events]
    have ht : (s.trace (.start (root :: left) opened :: turns.flatMap Turn.events)).getLast?
        = (({ s with pending := some scan } : Scanner).trace
            (turns.flatMap Turn.events)).getLast? := by
      show (_ :: trace (s.handle (.start (root :: left) opened)).scanner _).getLast? = _
      rw [scanner_handle_start hi, List.getLast?_cons_of_ne_nil (trace_ne_nil hne' _)]
    have hgt : ({ s with pending := some scan } : Scanner).gathered scan turns
        = ((root :: left).zip cs).reverse := by
      show ((root :: left).zip (contributions _ _ (root :: left) turns)).reverse ++ [] = _
      rw [contributions_with_pending, List.append_nil, hcs]
    have htidy := tidy_gathered hc scan rfl hl' hg
    rw [ht, getLast?_trace_turns hc scan rfl hl' hg, publish_eq _ _ htidy, hgt,
      foldl_settle_with_pending]
    rfl

/-- The last response to a scan of different roots. -/
theorem getLast?_trace_scan (hs : s.Sound) (hi : s.isScanning = false) {opened : List Path}
    (hne : roots ≠ []) (apart : roots.Pairwise fun p q => p.same q = false)
    (hl : turns.length = roots.length) (hg : ∀ t ∈ turns, goesOn t.reply = true)
    {cs : List (List Diagnostic)}
    (hcs : contributions (opened.map Path.normalize) s roots turns = cs) :
    (s.trace (.start roots opened :: turns.flatMap Turn.events)).getLast? = some
      { answer := .progress
          (.completed (cs.flatten.map (·.file)).dedup.length cs.flatten.length)
        notices := [.setAll cs.flatten true]
        scanner := { (turns.flatMap Turn.meanwhile).foldl settle s with
          tracked := (cs.flatten.map (·.file)).dedup
          published := (roots.zip cs).reverse
          pending := none } } := by
  have hlc : cs.length = roots.length := by rw [← hcs, length_contributions _ s hl]
  rw [getLast?_trace_start hs hi hne hl hg hcs, flatMap_latest_zip apart hlc]

/-! ### What is remembered -/

/-- Whether a scanner takes `cs` for what `roots` gave to the last completed scan, and nothing for
what any other root gave, until another scan completes or it is made to forget. -/
def Remembers (s : Scanner) (roots : List Path) (cs : List (List Diagnostic)) : Prop :=
  ∀ later : List Event, (∀ r ∈ s.trace later, r.completes = false) →
    (∀ e ∈ later, e.forgets = false) →
    (∀ rc ∈ roots.zip cs, latest (s.after later).published rc.1 = rc.2) ∧
    ∀ root, (∀ r ∈ roots, r.same root = false) → latest (s.after later).published root = []

theorem remembers_zip {cs : List (List Diagnostic)}
    (apart : roots.Pairwise fun p q => p.same q = false) (h : cs.length = roots.length)
    (hs : s.published = (roots.zip cs).reverse) : s.Remembers roots cs := by
  intro later hc hf
  rw [published_after hc hf, hs]
  refine ⟨fun rc hm => latest_zip apart h hm, ?_⟩
  intro root hr
  refine latest_of_apart ?_
  intro f hm
  exact hr f.1 (List.of_mem_zip (List.mem_reverse.1 hm)).1

/-- A scanner that has been made to forget takes no root to have given anything. -/
theorem remembers_nil_of_forgets (s : Scanner) {e : Event} (h : e.forgets = true) :
    (s.handle e).scanner.Remembers [] [] := by
  have hp : (s.handle e).scanner.published = [] := by
    rcases eq_of_forgets h with rfl | rfl
    · rfl
    · rfl
  exact remembers_zip .nil rfl hp

theorem remembers_nil_new (settings : Settings) : ({ settings } : Scanner).Remembers [] [] :=
  remembers_zip .nil rfl rfl

/-! ### Completed scans -/

/-- **A scan publishes exactly what its roots contribute.**  Each contribution depends on the reply
for its own root only.  What a root that fails falls back on is what it contributed to the last
completed scan, or nothing if the scanner has been made to forget since. -/
theorem scan_publishes_contributions (settings : Settings) (before : List Event)
    (roots opened : List Path) (turns : List Turn)
    (idle : (({ settings } : Scanner).after before).isScanning = false) (hne : roots ≠ [])
    (apart : roots.Pairwise fun p q => p.same q = false) (hl : turns.length = roots.length)
    (hg : ∀ t ∈ turns, goesOn t.reply = true) :
    let s := ({ settings } : Scanner).after before
    let cs := contributions (opened.map Path.normalize) s roots turns
    let files := (cs.flatten.map (·.file)).dedup
    cs.length = roots.length ∧
    (∀ i root t, roots[i]? = some root → turns[i]? = some t → cs[i]? = some
      ((((turns.take (i + 1)).flatMap Turn.meanwhile).foldl settle s).contribution
        (opened.map Path.normalize) root t.reply)) ∧
    (∃ s', (s.trace (.start roots opened :: turns.flatMap Turn.events)).getLast? = some
        { answer := .progress (.completed files.length cs.flatten.length)
          notices := [.setAll cs.flatten true]
          scanner := s' } ∧
      s'.trackedFiles.length = files.length ∧ (∀ p, p ∈ s'.trackedFiles ↔ p ∈ files) ∧
      s'.Remembers roots cs) ∧
    ({ settings } : Scanner).Remembers [] [] ∧
    ∀ (t : Scanner) (e : Event), e.forgets = true → (t.handle e).scanner.Remembers [] [] := by
  intro s cs files
  have hc : cs.length = roots.length := length_contributions _ s hl
  have hcs : contributions (opened.map Path.normalize) s roots turns = cs := rfl
  have hlast := getLast?_trace_scan (sound_after settings before) idle hne apart hl hg hcs
  refine ⟨hc, fun i root t hr ht => getElem?_contributions _ s hr ht, ⟨_, hlast, ?_, ?_, ?_⟩,
    remembers_nil_new settings, fun t e he => remembers_nil_of_forgets t he⟩
  · exact List.length_mergeSort files
  · exact fun p => mem_trackedFiles
  · exact remembers_zip apart hc rfl

/-- A file is handed over while the scan waits for the first root, whose run then fails. -/
theorem scan_publishes_contributions_of_failure :
    let before : List Event := [.start [⟨"/ws1"⟩, ⟨"/ws2"⟩] [], .reply (reportOn ["a.py", "b.py"]),
      .reply (reportOn ["c.py"])]
    let s := ({ settings := {} } : Scanner).after before
    let events : List Event := [.start [⟨"/ws1"⟩, ⟨"/ws2"⟩] [⟨"/ws2/c.py"⟩],
      .clearFile ⟨"/ws1/a.py"⟩, .reply (.error (.complaint "ruff" "ruff failed")),
      .reply (reportOn ["c.py", "./d.py"])]
    s.isScanning = false ∧
    ∃ s', (s.trace events).getLast? = some
        { answer := .progress (.completed 2 2)
          notices := [.setAll [lineTooLong "/ws1/b.py", lineTooLong "/ws2/d.py"] true]
          scanner := s' } ∧
      s'.Remembers [⟨"/ws1"⟩, ⟨"/ws2"⟩] [[lineTooLong "/ws1/b.py"], [lineTooLong "/ws2/d.py"]] := by
  intro before s events
  let turns : List Turn :=
    [⟨[.clearFile ⟨"/ws1/a.py"⟩], .error (.complaint "ruff" "ruff failed"), by simp [Event.isAside]⟩,
      .plain (reportOn ["c.py", "./d.py"])]
  have idle : s.isScanning = false := by decide +kernel
  have hcs : contributions ([⟨"/ws2/c.py"⟩].map Path.normalize) s [⟨"/ws1"⟩, ⟨"/ws2"⟩] turns
      = [[lineTooLong "/ws1/b.py"], [lineTooLong "/ws2/d.py"]] := by decide +kernel
  have h := scan_publishes_contributions {} before [⟨"/ws1"⟩, ⟨"/ws2"⟩] [⟨"/ws2/c.py"⟩] turns
    idle (by simp) (by decide) rfl (by decide)
  obtain ⟨-, -, ⟨s', hlast, -, -, hr⟩, -⟩ := h
  rw [hcs] at hlast hr
  exact ⟨idle, s', hlast, hr⟩

end LintHost.Scanner
