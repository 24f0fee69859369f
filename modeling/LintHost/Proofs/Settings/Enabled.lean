/-
LintHost/Proofs/Settings/Enabled.lean

What the switch for linting turns off.  With the switch off, linting a document asks the
analyzer nothing, finds nothing and leaves the document alone (`lint_of_off`), and so does
linting documents one after the other (`lintAll_of_off`).  A scanner, though, never looks at
the switch: turning it over commutes with every event (`handle_switched`).

Main result: with the switch off all linting is idle, while a scanner does what it would do
with the switch on.  It asks for a run of the analyzer as soon as a scan of any root is asked
for, and only as long as there is none does it publish and track nothing
(`off_switch_stops_linting_only`).
-/
import LintHost.Document.Lint
import LintHost.Proofs.Scanner.AllOrNothing

namespace LintHost

open Analyzer

namespace Document

/-! ### Linting -/

/-- Lints documents one after the other. -/
def lintAll (s : Settings) :
    List (Mode × Document) → Consult (List (Except Failure Linted × Document))
  | [] => .done []
  | (mode, d) :: jobs =>
    (d.lint s mode).bind fun linted => (lintAll s jobs).bind fun rest => .done (linted :: rest)

/-- With the switch off, a document is not even looked at. -/
theorem lint_of_off {s : Settings} (off : s.enabled = false) (mode : Mode) (d : Document) :
    d.lint s mode = .done (.ok (.diagnostics []), d) := by
  have hl : d.isLinted s = false := by
    rw [isLinted, off]
    rfl
  cases mode with
  | report =>
    have hr : d.report s = .done (.ok []) := by
      rw [report, hl]
      rfl
    rw [lint, hr]
    rfl
  | fix =>
    have hf : d.fixedText s = .done (.ok none) := by
      rw [fixedText, hl]
      rfl
    rw [lint, hf]
    rfl

theorem lintAll_of_off {s : Settings} (off : s.enabled = false) (jobs : List (Mode × Document)) :
    lintAll s jobs = .done (jobs.map fun job => (.ok (.diagnostics []), job.2)) := by
  induction jobs with
  | nil => rfl
  | cons job jobs ih =>
    obtain ⟨mode, d⟩ := job
    rw [lintAll, lint_of_off off, ih]
    rfl

end Document

namespace Scanner

/-! ### Scanning -/

/-- A scanner with the switch for linting in a given position. -/
def switched (on : Bool) (s : Scanner) : Scanner :=
  { s with settings := s.settings.set on .enabled }

/-- A step, and a response, that leave the switch in a given position. -/
def Step.switched (on : Bool) (step : Step) : Step :=
  { step with scanner := step.scanner.switched on }

def Response.switched (on : Bool) (r : Response) : Response :=
  { r with scanner := r.scanner.switched on }

variable {s : Scanner}

/-- What a reply brings does not depend on the switch. -/
theorem foundBy_switched (s : Scanner) (on : Bool) (root : Path) (opened : List Path) (r : Reply) :
    (s.switched on).foundBy root opened r = s.foundBy root opened r := by
  cases r with
  | ok output => rfl
  | error failure => cases failure <;> rfl

theorem start_switched (s : Scanner) (on : Bool) (roots opened : List Path) :
    (s.switched on).start roots opened = (s.start roots opened).switched on := by
  unfold start
  have hs : (s.switched on).isScanning = s.isScanning := rfl
  rw [hs]
  split
  · rfl
  · cases roots with
    | nil => rfl
    | cons root left => rfl

theorem receive_switched (s : Scanner) (on : Bool) (r : Reply) :
    (s.switched on).receive r = (s.receive r).switched on := by
  have hp : (s.switched on).pending = s.pending := rfl
  unfold receive
  rw [hp]
  cases s.pending with
  | none => rfl
  | some scan =>
    simp only [foundBy_switched]
    cases s.foundBy scan.root scan.opened r with
    | none => rfl
    | some ds =>
      cases scan.left with
      | nil => rfl
      | cons root left => rfl

theorem clearFile_switched (s : Scanner) (on : Bool) (file : Path) :
    (s.switched on).clearFile file
      = ((s.clearFile file).1, (s.clearFile file).2.1, (s.clearFile file).2.2.switched on) := by
  have ht : (s.switched on).tracked = s.tracked := rfl
  unfold clearFile
  rw [ht]
  dsimp only
  split
  · rfl
  · rfl

/-- **A scanner never looks at the switch**: what comes of an event is the same in either
position. -/
theorem handle_switched (s : Scanner) (on : Bool) (e : Event) :
    (s.switched on).handle e = (s.handle e).switched on := by
  cases e with
  | start roots opened => exact congrArg Response.ofStep (start_switched s on roots opened)
  | reply r => exact congrArg Response.ofStep (receive_switched s on r)
  | drop => rfl
  | clearFile file =>
    show Response.mk _ _ _ = _
    rw [clearFile_switched]
    rfl
  | clearAll => rfl
  | dispose => rfl

theorem trace_switched (s : Scanner) (on : Bool) (events : List Event) :
    (s.switched on).trace events = (s.trace events).map (Response.switched on) := by
  induction events generalizing s with
  | nil => rfl
  | cons e events ih =>
    rw [trace, trace, List.map_cons, handle_switched]
    exact congrArg _ (ih _)

/-! ### Scanners that are never asked for a scan of a root -/

/-- Whether no scan of any root is asked for. -/
def NoRoots (events : List Event) : Prop :=
  ∀ roots opened, .start roots opened ∈ events → roots = []

/-- A scanner without a scan under way and without anything to show. -/
structure Vacant (s : Scanner) : Prop where
  idle : s.pending = none
  tracked : s.tracked = []

theorem Vacant.isScanning (h : s.Vacant) : s.isScanning = false := by
  rw [Scanner.isScanning, h.idle]
  rfl

/-- Nothing but a scan of a root makes a vacant scanner ask for a run, show or track anything. -/
theorem Vacant.handle (h : s.Vacant) {e : Event}
    (he : ∀ roots opened, e = .start roots opened → roots = []) :
    (s.handle e).call? = none ∧ (∀ n ∈ (s.handle e).notices, n = .clear) ∧
      (s.handle e).scanner.Vacant := by
  cases e with
  | start roots opened =>
    obtain rfl : roots = [] := he roots opened rfl
    have hs : s.handle (.start [] opened) = ⟨.progress .noRoots, [], s⟩ := by
      show Response.ofStep (s.start [] opened) = _
      unfold start
      rw [h.isScanning]
      rfl
    rw [hs]
    exact ⟨rfl, fun _ hn => absurd hn List.not_mem_nil, h⟩
  | reply r =>
    have hr : s.handle (.reply r) = ⟨.progress .idle, [], s⟩ := by
      show Response.ofStep (s.receive r) = _
      rw [receive, h.idle]
      rfl
    rw [hr]
    exact ⟨rfl, fun _ hn => absurd hn List.not_mem_nil, h⟩
  | drop => exact ⟨rfl, fun _ hn => absurd hn List.not_mem_nil, rfl, h.tracked⟩
  | clearFile file =>
    have hc : s.clearFile file = (false, [], s) := by
      rw [clearFile, h.tracked]
      rfl
    have hh : s.handle (.clearFile file) = ⟨.flag false, [], s⟩ := by
      show Response.mk _ _ _ = _
      rw [hc]
    rw [hh]
    exact ⟨rfl, fun _ hn => absurd hn List.not_mem_nil, h⟩
  | clearAll => exact ⟨rfl, fun _ hn => List.mem_singleton.1 hn, h.idle, rfl⟩
  | dispose => exact ⟨rfl, fun _ hn => List.mem_singleton.1 hn, h.idle, rfl⟩

theorem Vacant.trace (h : s.Vacant) {events : List Event} (he : NoRoots events) :
    s.calls events = [] ∧
      ∀ r ∈ s.trace events, (∀ n ∈ r.notices, n = .clear) ∧ r.scanner.tracked = [] := by
  induction events generalizing s with
  | nil => exact ⟨rfl, fun _ hr => absurd hr List.not_mem_nil⟩
  | cons e events ih =>
    obtain ⟨hcall, hnotices, hvacant⟩ :=
      h.handle fun roots opened e' => he roots opened (e' ▸ List.mem_cons_self)
    obtain ⟨hcalls, hrest⟩ :=
      ih hvacant fun roots opened hm => he roots opened (List.mem_cons_of_mem _ hm)
    refine ⟨?_, ?_⟩
    · rw [calls_cons, hcall, hcalls]
      rfl
    · intro r hr
      rcases List.mem_cons.1 hr with rfl | hr
      · exact ⟨hnotices, hvacant.tracked⟩
      · exact hrest r hr

/-- **The first scan of a root asks for a run**, whatever has happened before. -/
theorem noRoots_of_calls_eq_nil (h : s.Vacant) {events : List Event} (hc : s.calls events = []) :
    NoRoots events := by
  induction events generalizing s with
  | nil => exact fun _ _ hm => absurd hm List.not_mem_nil
  | cons e events ih =>
    rw [calls_cons, List.append_eq_nil_iff] at hc
    have hfirst : ∀ roots opened, e = .start roots opened → roots = [] := by
      rintro roots opened rfl
      cases roots with
      | nil => rfl
      | cons root left =>
        rw [handle_start_of_roots h.isScanning] at hc
        cases hc.1
    obtain ⟨-, -, hvacant⟩ := h.handle hfirst
    intro roots opened hm
    rcases List.mem_cons.1 hm with e' | hm
    · exact hfirst roots opened e'.symm
    · exact ih hvacant hc.2 roots opened hm

end Scanner

open Document Scanner in
/-- **The switch for linting turns off one of the two.**  With the switch off, linting any documents
in a row asks the analyzer nothing, finds nothing and changes no document.  A scanner does what it
does with the switch on: it asks for a run exactly if a scan of some root is asked for, and only
otherwise it is certain to publish and track nothing. -/
theorem off_switch_stops_linting_only (settings : Settings) (off : settings.enabled = false) :
    (∀ jobs : List (Mode × Document),
      lintAll settings jobs = .done (jobs.map fun job => (.ok (.diagnostics []), job.2))) ∧
    ∀ events : List Event,
      let s : Scanner := { settings }
      (s.switched true).trace events = (s.trace events).map (Response.switched true) ∧
      (s.calls events = [] ↔ NoRoots events) ∧
      (NoRoots events → ∀ r ∈ s.trace events,
        (∀ n ∈ r.notices, n = .clear) ∧ r.scanner.tracked = []) := by
  refine ⟨lintAll_of_off off, fun events => ?_⟩
  intro s
  have h : s.Vacant := ⟨rfl, rfl⟩
  refine ⟨trace_switched s true events, ⟨noRoots_of_calls_eq_nil h, fun hn => ?_⟩, fun hn => ?_⟩
  · exact (h.trace hn).1
  · exact (h.trace hn).2

open Document Scanner in
/-- A report and a fix of one document, and a scan of one root that reports something. -/
theorem off_switch_stops_linting_only_of_scan :
    let settings : Settings := { enabled := false }
    let d : Document := ⟨⟨"/ws/a.py"⟩, "import os\n"⟩
    let s : Scanner := { settings }
    let events : List Event := [.clearAll, .start [⟨"/ws"⟩] [], .reply (reportOn ["a.py"])]
    settings.enabled = false ∧
      lintAll settings [(.report, d), (.fix, d)]
        = .done [(.ok (.diagnostics []), d), (.ok (.diagnostics []), d)] ∧
      s.calls events ≠ [] ∧
      (s.switched true).trace events = (s.trace events).map (Response.switched true) := by
  intro settings d s events
  obtain ⟨hlint, hscan⟩ := off_switch_stops_linting_only settings rfl
  obtain ⟨htrace, hcalls, -⟩ := hscan events
  refine ⟨rfl, hlint [(.report, d), (.fix, d)], ?_, htrace⟩
  intro hc
  have hroots := hcalls.1 hc [⟨"/ws"⟩] [] (by simp [events])
  cases hroots

open Scanner in
/-- With the switch off, a scan runs the analyzer, publishes what it reports and tracks the file. -/
theorem off_switch_leaves_scans_on :
    let s : Scanner := { settings := { enabled := false } }
    let events : List Event := [.start [⟨"/ws"⟩] [], .reply (reportOn ["a.py"])]
    s.settings.enabled = false ∧
      (s.calls events).length = 1 ∧
      (s.trace events).getLast?.map (·.notices) = some [.setAll [lineTooLong "/ws/a.py"] true] ∧
      (s.after events).tracked = [⟨"/ws/a.py"⟩] := by
  decide +kernel

end LintHost
