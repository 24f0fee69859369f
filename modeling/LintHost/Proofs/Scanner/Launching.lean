/-
LintHost/Proofs/Scanner/Launching.lean

A scan on a machine.  The runs that it asks for take place one after the other; they
change what the programs keep and nothing else (`exists_state_of_run`), so whether a run
can be started does not depend on the runs before it.  A run that has been started never
ends the scan, however it ends (`goesOn_answer_run_iff`).  For an analyzer that can be
started at all, a run can be started in a root exactly if the root can be entered
(`canStart_checkRoot_iff`).

Main result: a scan on a machine checks its roots up to the first one that cannot be
entered.  If there is such a root the scan has failed and has changed nothing, and the
roots behind it are not looked at; otherwise it completes by the replies of all roots
(`scan_ends_at_first_unusable_root`).
-/
import LintHost.Command.Run
import LintHost.Host.Machine
import LintHost.Proofs.Scanner.AllOrNothing
import LintHost.Proofs.Text.Raw

namespace LintHost

open Analyzer Storage

namespace Machine

variable {σ : Type}

/-! ### Starting a run -/

/-- Whether a program can run in a directory. -/
def canEnter (m : Machine σ) (directory : Path) : Bool :=
  match m.disk.findDirectory directory with
  | .ok _ => true
  | .error _ => false

/-- Whether a run can be started. -/
structure CanStart (m : Machine σ) (call : Invocation) : Prop where
  program : (m.program? call.program).isSome = true
  nul : call.hasNul = false
  directory : ∀ directory, call.directory = some directory → m.canEnter directory = true

/-- The replies to some runs in a row, and the machine after them. -/
def runAll : Machine σ → List Invocation → List Reply × Machine σ
  | m, [] => ([], m)
  | m, call :: calls =>
    let (reply, m) := m.answer (.run call)
    let (replies, m) := m.runAll calls
    (reply :: replies, m)

variable {m : Machine σ} {call : Invocation}

theorem canEnter_iff {directory : Path} :
    m.canEnter directory = true ↔ ∃ place, m.disk.findDirectory directory = .ok place := by
  unfold canEnter
  cases m.disk.findDirectory directory with
  | ok place => exact ⟨fun _ => ⟨place, rfl⟩, fun _ => rfl⟩
  | error fault => simp

theorem canStart_of_launch {p : Program σ × Place} (h : m.launch call = .ok p) :
    m.CanStart call := by
  unfold launch at h
  split at h
  · cases h
  · next program hp =>
    split at h
    · cases h
    · next hn =>
      refine ⟨by rw [hp]; rfl, by simpa using hn, fun directory hd => ?_⟩
      simp only [hd] at h
      rw [canEnter_iff]
      split at h
      · cases h
      · next place he => exact ⟨place, he⟩

theorem exists_launch (h : m.CanStart call) : ∃ p, m.launch call = .ok p := by
  obtain ⟨program, hp⟩ := Option.isSome_iff_exists.1 h.program
  simp only [launch, hp, h.nul]
  rcases e : call.directory with - | directory
  · exact ⟨_, rfl⟩
  · obtain ⟨place, he⟩ := canEnter_iff.1 (h.directory directory e)
    simp only [he]
    exact ⟨_, rfl⟩

/-- What a program does never looks as if it had not been started. -/
theorem goesOn_outcome (c : Course) (call : Invocation) :
    Scanner.goesOn ((c.outcome call).map (·.text)) = true := by
  unfold Course.outcome
  split
  · rfl
  · split
    · unfold Analyzer.outcome
      split
      · rfl
      · split <;> rfl
    · rfl

/-- A run that cannot be started leaves the machine as it is. -/
theorem answer_run_of_not_canStart (h : ¬ m.CanStart call) :
    ∃ reply, m.answer (.run call) = (reply, m) ∧ Scanner.goesOn reply = false := by
  cases e : m.launch call with
  | ok p => exact absurd (canStart_of_launch e) h
  | error fault =>
    refine ⟨.error (.ofStart call.program fault), ?_, rfl⟩
    simp only [answer, runProgram, e]
    rfl

theorem goesOn_answer_run_of_canStart (h : m.CanStart call) :
    Scanner.goesOn (m.answer (.run call)).1 = true := by
  obtain ⟨p, hp⟩ := exists_launch h
  simp only [answer, runProgram, hp]
  exact goesOn_outcome _ call

/-- **A reply ends a scan only if the run could not be started.** -/
theorem goesOn_answer_run_iff :
    Scanner.goesOn (m.answer (.run call)).1 = true ↔ m.CanStart call := by
  constructor
  · intro h
    by_contra hn
    obtain ⟨reply, hr, he⟩ := answer_run_of_not_canStart hn
    rw [hr, he] at h
    cases h
  · exact goesOn_answer_run_of_canStart

/-- A run changes nothing but what the programs keep. -/
theorem exists_state_of_run (m : Machine σ) (call : Invocation) :
    ∃ state, (m.answer (.run call)).2 = { m with state } := by
  simp only [answer, runProgram]
  cases m.launch call with
  | error fault => exact ⟨m.state, rfl⟩
  | ok p => exact ⟨_, rfl⟩

theorem canEnter_answer_run (m : Machine σ) (call : Invocation) :
    (m.answer (.run call)).2.canEnter = m.canEnter := by
  obtain ⟨state, h⟩ := m.exists_state_of_run call
  rw [h]
  rfl

theorem canStart_answer_run_iff {other : Invocation} :
    (m.answer (.run call)).2.CanStart other ↔ m.CanStart other := by
  obtain ⟨state, h⟩ := m.exists_state_of_run call
  rw [h]
  exact ⟨fun ⟨hp, hn, hd⟩ => ⟨hp, hn, hd⟩, fun ⟨hp, hn, hd⟩ => ⟨hp, hn, hd⟩⟩

/-! ### Runs in roots -/

theorem hasNul_of_canEnter {directory : Path} (h : m.canEnter directory = true) :
    directory.raw.hasNul = false := by
  rw [← Bool.not_eq_true]
  intro hn
  have hs : Disk.segments directory = .error .nulInName := by
    rw [Disk.segments, if_pos hn]
  have hf : m.disk.findDirectory directory = .error .nulInName := by
    rw [Disk.findDirectory, Disk.find, hs]
    rfl
  rw [canEnter, hf] at h
  cases h

/-- The root is the only part of its run that the settings do not determine. -/
theorem exists_hasNul_checkRoot (s : Settings) :
    ∃ determined : Bool, ∀ root,
      (Invocation.checkRoot s root).hasNul = (determined || root.raw.hasNul) := by
  let fixed := ["check", "--quiet", "--output-format=json"].map RawText.ofString
  let options := ((checkArguments s (.root ⟨""⟩) false).drop 4).map RawText.ofString
  -- the root is the fourth argument, and the directory
  have harguments : ∀ root : Path, (checkArguments s (.root root) false).map RawText.ofString
      = fixed ++ .ofString root.text :: options := by
    intro root
    simp only [fixed, options, checkArguments, List.append_assoc]
    rfl
  have hfixed : fixed.any RawText.hasNul = false := by decide
  refine ⟨options.any RawText.hasNul, fun root => ?_⟩
  show ((checkArguments s (.root root) false).map RawText.ofString ++ [root.raw]).any _ = _
  rw [harguments, List.any_append, List.any_append, hfixed, List.any_cons, List.any_cons,
    List.any_nil, Path.text, RawText.hasNul_ofString_text]
  cases root.raw.hasNul <;> simp

theorem hasNul_checkRoot {s : Settings} {elsewhere root : Path}
    (h : (Invocation.checkRoot s elsewhere).hasNul = false) (hr : root.raw.hasNul = false) :
    (Invocation.checkRoot s root).hasNul = false := by
  obtain ⟨determined, hd⟩ := exists_hasNul_checkRoot s
  rw [hd, Bool.or_eq_false_iff] at h ⊢
  exact ⟨h.1, hr⟩

/-- **An analyzer that can be started somewhere** can be started in every root that can be
entered. -/
theorem canStart_checkRoot_iff {s : Settings}
    (works : ∃ elsewhere, m.CanStart (.checkRoot s elsewhere)) {root : Path} :
    m.CanStart (.checkRoot s root) ↔ m.canEnter root = true := by
  obtain ⟨elsewhere, hw⟩ := works
  constructor
  · intro h
    exact h.directory root rfl
  · intro h
    refine ⟨hw.program, hasNul_checkRoot hw.nul (hasNul_of_canEnter h), ?_⟩
    intro directory hd
    rw [← Option.some.inj hd]
    exact h

end Machine

namespace Scanner

open Command

variable {σ : Type} {m : Machine σ} {s : Scanner}

/-- A step is told by its response. -/
theorem eq_of_ofStep {a b : Step} (h : Response.ofStep a = Response.ofStep b) : a = b := by
  obtain ⟨hp, hn, hs⟩ := Response.mk.inj h
  cases a
  cases b
  congr
  exact Answer.progress.inj hp

/-- The last response does not depend on where the trace begins. -/
theorem getLast?_trace_cons {s' : Scanner} {e : Event} {events : List Event} {r : Response}
    (hs : (s.handle e).scanner = s') (h : (s'.trace events).getLast? = some r) :
    (s.trace (e :: events)).getLast? = some r := by
  show (s.handle e :: (s.handle e).scanner.trace events).getLast? = _
  rw [hs, List.getLast?_cons, h]
  rfl

/-! ### Scans on a machine -/

/-- A scan that waits, once it has been carried through on a machine: it has gone through its
roots up to the first one that cannot be entered. -/
structure CarriedThrough (m : Machine σ) (s : Scanner) (roots : List Path)
    (ended : Step × Machine σ) : Prop where
  machine : ended.2
    = (m.runAll ((roots.takeWhile m.canEnter).map (Invocation.checkRoot s.settings))).2
  failed : (∃ root ∈ roots, m.canEnter root = false) →
    ended.1 = { progress := .failed, scanner := { s with pending := none } }
  completed : (∀ root ∈ roots, m.canEnter root = true) →
    let replies := (m.runAll (roots.map (Invocation.checkRoot s.settings))).1
    (s.trace (replies.map Event.reply)).getLast? = some (.ofStep ended.1) ∧
      ∃ files ds, ended.1.progress = .completed files ds.length ∧
        ended.1.notices = [.setAll ds true]

variable {root : Path} {left : List Path}

/-- Carrying a scan through asks for the run in its root, and goes on with the reply. -/
theorem run_follow_waiting (m : Machine σ) (s : Scanner) (fuel : Nat) (call : Invocation) :
    m.run (follow (fuel + 1) { progress := .waiting call, scanner := s })
      = (m.answer (.run call)).2.run
          (follow fuel (s.receive (m.answer (.run call)).1)) := rfl

/-- Nothing is carried through after a scan has ended. -/
theorem run_follow_of_ended (m : Machine σ) (fuel : Nat) {step : Step}
    (h : ∀ call, step.progress ≠ .waiting call) : m.run (follow fuel step) = (step, m) := by
  cases fuel with
  | zero => rfl
  | succ fuel =>
    unfold follow
    split
    · next call hw => exact absurd hw (h call)
    · rfl

/-- A root that cannot be entered ends the scan, whatever roots there are behind it. -/
theorem carriedThrough_of_unusable {roots opened : List Path} {found : Findings}
    (works : ∃ elsewhere, m.CanStart (.checkRoot s.settings elsewhere))
    (hp : s.pending = some ⟨roots, root, left, opened, found⟩) (hn : m.canEnter root = false)
    (fuel : Nat) :
    CarriedThrough m s (root :: left) (m.run (follow (fuel + 1)
      { progress := .waiting (.checkRoot s.settings root), scanner := s })) := by
  have hstart : ¬ m.CanStart (.checkRoot s.settings root) := by
    rw [Machine.canStart_checkRoot_iff works, hn]
    exact Bool.false_ne_true
  obtain ⟨reply, hr, hg⟩ := Machine.answer_run_of_not_canStart hstart
  have hfailed : s.receive reply
      = { progress := .failed, scanner := { s with pending := none } } :=
    eq_of_ofStep (handle_reply_of_ended hp hg)
  rw [run_follow_waiting, hr, hfailed, run_follow_of_ended _ _ (by simp)]
  refine ⟨?_, fun _ => rfl, fun h => ?_⟩
  · rw [List.takeWhile_cons_of_neg (by simp [hn])]
    rfl
  · rw [h root List.mem_cons_self] at hn
    cases hn

/-- The last root completes the scan, if it can be entered. -/
theorem carriedThrough_of_last {roots opened : List Path} {found : Findings}
    (works : ∃ elsewhere, m.CanStart (.checkRoot s.settings elsewhere))
    (hp : s.pending = some ⟨roots, root, [], opened, found⟩) (hroot : m.canEnter root = true) :
    CarriedThrough m s [root] (m.run (follow 1
      { progress := .waiting (.checkRoot s.settings root), scanner := s })) := by
  have hg := Machine.goesOn_answer_run_of_canStart
    ((Machine.canStart_checkRoot_iff works).2 hroot)
  obtain ⟨files, ds, s', hr, -⟩ := handle_reply_of_last hp hg rfl
  have hdone : s.receive (m.answer (.run (.checkRoot s.settings root))).1
      = { progress := .completed files ds.length, notices := [.setAll ds true], scanner := s' } :=
    eq_of_ofStep hr
  rw [run_follow_waiting, run_follow_of_ended _ _ (by simp [hdone])]
  refine ⟨?_, ?_, fun _ => ⟨rfl, files, ds, ?_, ?_⟩⟩
  · rw [List.takeWhile_cons_of_pos hroot]
    rfl
  · rintro ⟨other, ho, hn⟩
    rw [List.mem_singleton.1 ho, hroot] at hn
    cases hn
  · rw [hdone]
  · rw [hdone]

/-- Any other root that can be entered takes the scan to the next one. -/
theorem CarriedThrough.cons {next : Path} {s' : Scanner} {ended : Step × Machine σ}
    (hroot : m.canEnter root = true)
    (hr : s.handle (.reply (m.answer (.run (.checkRoot s.settings root))).1)
      = ⟨.progress (.waiting (.checkRoot s.settings next)), [], s'⟩)
    (hs : s'.settings = s.settings)
    (hidle : { s' with pending := none } = { s with pending := none })
    (h : CarriedThrough (m.answer (.run (.checkRoot s.settings root))).2 s' (next :: left) ended) :
    CarriedThrough m s (root :: next :: left) ended := by
  obtain ⟨hmachine, hfailed, hcompleted⟩ := h
  rw [Machine.canEnter_answer_run] at hmachine hfailed hcompleted
  rw [hs] at hmachine hcompleted
  refine ⟨?_, ?_, ?_⟩
  · rw [List.takeWhile_cons_of_pos hroot, hmachine]
    rfl
  · rintro ⟨other, ho, hn⟩
    rcases List.mem_cons.1 ho with rfl | ho
    · rw [hroot] at hn
      cases hn
    · rw [← hidle]
      exact hfailed ⟨other, ho, hn⟩
  · intro hall
    obtain ⟨hlast, hdone⟩ := hcompleted fun other ho => hall other (List.mem_cons_of_mem _ ho)
    exact ⟨getLast?_trace_cons (congrArg Response.scanner hr) hlast, hdone⟩

/-- **A scan that waits is carried through** up to the first root that cannot be entered. -/
theorem carriedThrough {roots opened : List Path} {found : Findings}
    (works : ∃ elsewhere, m.CanStart (.checkRoot s.settings elsewhere))
    (hp : s.pending = some ⟨roots, root, left, opened, found⟩) :
    CarriedThrough m s (root :: left) (m.run (follow (left.length + 1)
      { progress := .waiting (.checkRoot s.settings root), scanner := s })) := by
  -- one root after the other; the machine and the scanner change with each reply
  induction left generalizing m s root found with
  | nil =>
    cases hroot : m.canEnter root with
    | false => exact carriedThrough_of_unusable works hp hroot 0
    | true => exact carriedThrough_of_last works hp hroot
  | cons next left ih =>
    cases hroot : m.canEnter root with
    | false => exact carriedThrough_of_unusable works hp hroot _
    | true =>
      have hg := Machine.goesOn_answer_run_of_canStart
        ((Machine.canStart_checkRoot_iff works).2 hroot)
      obtain ⟨found', hr⟩ := handle_reply_of_left hp hg rfl
      let s' : Scanner := { s with pending := some ⟨roots, next, left, opened, found'⟩ }
      have hnext : s.receive (m.answer (.run (.checkRoot s.settings root))).1
          = { progress := .waiting (.checkRoot s'.settings next), scanner := s' } :=
        eq_of_ofStep hr
      obtain ⟨elsewhere, hw⟩ := works
      have h := ih (m := (m.answer (.run (.checkRoot s.settings root))).2) (s := s')
        ⟨elsewhere, Machine.canStart_answer_run_iff.2 hw⟩ rfl
      rw [List.length_cons, run_follow_waiting, hnext]
      exact h.cons hroot hr rfl rfl

/-- **A scan ends at the first root that cannot be entered**, for an analyzer that can be started
somewhere.  The reply for a root ends the scan exactly if the root cannot be entered.  The runs in
the roots before the first such one are the only ones that take place; the scan has then failed and
leaves the scanner as if it had not been asked for.  If all roots can be entered the scan completes
by the replies of all of them. -/
theorem scan_ends_at_first_unusable_root (m : Machine σ) (s : Scanner) (roots opened : List Path)
    (works : ∃ elsewhere, m.CanStart (.checkRoot s.settings elsewhere))
    (idle : s.isScanning = false) (hne : roots ≠ []) :
    let call := Invocation.checkRoot s.settings
    let ended := m.run (follow roots.length (s.start roots opened))
    (∀ root, goesOn (m.answer (.run (call root))).1 = true ↔ m.canEnter root = true) ∧
    ended.2 = (m.runAll ((roots.takeWhile m.canEnter).map call)).2 ∧
    ((∃ root ∈ roots, m.canEnter root = false) →
      ended.1 = { progress := .failed, scanner := s }) ∧
    ((∀ root ∈ roots, m.canEnter root = true) →
      let replies := (m.runAll (roots.map call)).1
      (s.trace (.start roots opened :: replies.map Event.reply)).getLast?
        = some (.ofStep ended.1) ∧
      ∃ files ds, ended.1.progress = .completed files ds.length ∧
        ended.1.notices = [.setAll ds true]) := by
  intro call ended
  have hstarted : ∀ root, goesOn (m.answer (.run (call root))).1 = true ↔ m.canEnter root = true :=
    fun root => Machine.goesOn_answer_run_iff.trans (Machine.canStart_checkRoot_iff works)
  cases roots with
  | nil => exact absurd rfl hne
  | cons root left =>
    let scan : Scan := ⟨root :: left, root, left, opened.map Path.normalize, []⟩
    let waiting : Scanner := { s with pending := some scan }
    have hstart : s.start (root :: left) opened
        = { progress := .waiting (call root), scanner := waiting } :=
      eq_of_ofStep (handle_start_of_roots idle root left opened)
    have hidle : { waiting with pending := none } = s := by
      have hp : s.pending = none := by simpa [isScanning] using idle
      rw [← hp]
    have h : CarriedThrough m waiting (root :: left) ended := by
      show CarriedThrough m waiting (root :: left) (m.run (follow _ (s.start _ _)))
      rw [hstart]
      exact carriedThrough (s := waiting) works rfl
    refine ⟨hstarted, h.machine, fun hn => ?_, fun hall => ?_⟩
    · rw [h.failed hn, hidle]
    · obtain ⟨hlast, hdone⟩ := h.completed hall
      exact ⟨getLast?_trace_cons (scanner_handle_start idle root left opened) hlast, hdone⟩

/-- An analyzer that counts its runs and finds the same line too long in each of them. -/
def counting : Program Nat := fun runs _ _ _ =>
  (⟨[(.output, Text.encode (tooLongIn ["a.py"]).toList)], .exited 1, 0⟩, runs + 1)

/-- A machine with this analyzer and some entries on its disk. -/
def counters (entries : List (Place × Entry)) : Machine Nat where
  disk := { entries }
  program? := fun name => if name = "ruff" then some counting else none
  state := 0

theorem canStart_counters {entries : List (Place × Entry)} {root : Path}
    (h : (counters entries).canEnter root = true) :
    (counters entries).CanStart (.checkRoot {} root) := by
  have hn : (Invocation.checkRoot {} ⟨"/"⟩).hasNul = false := by decide +kernel
  refine ⟨rfl, Machine.hasNul_checkRoot hn (Machine.hasNul_of_canEnter h), fun directory hd => ?_⟩
  rw [← Option.some.inj hd]
  exact h

/-- Three roots, of which the second one is a file. -/
theorem scan_ends_at_first_unusable_root_of_file :
    let m := counters [(["ws1"], .directory), (["ws2"], .file [] 0o644), (["ws3"], .directory)]
    let s : Scanner := { settings := {} }
    let roots : List Path := [⟨"/ws1"⟩, ⟨"/ws2"⟩, ⟨"/ws3"⟩]
    let ended := m.run (follow roots.length (s.start roots []))
    m.CanStart (.checkRoot s.settings ⟨"/ws3"⟩) ∧ s.isScanning = false ∧ roots ≠ [] ∧
      ended.1 = { progress := .failed, scanner := s } ∧ ended.2.state = 1 := by
  intro m s roots ended
  have works : m.CanStart (.checkRoot s.settings ⟨"/ws3"⟩) :=
    canStart_counters (by decide +kernel)
  have hne : roots ≠ [] := List.cons_ne_nil _ _
  have hfile : ∃ root ∈ roots, m.canEnter root = false :=
    ⟨⟨"/ws2"⟩, List.mem_cons_of_mem _ List.mem_cons_self, by decide +kernel⟩
  obtain ⟨-, hmachine, hfailed, -⟩ :=
    scan_ends_at_first_unusable_root m s roots [] ⟨_, works⟩ rfl hne
  refine ⟨works, rfl, hne, hfailed hfile, ?_⟩
  show (m.run (follow roots.length (s.start roots []))).2.state = 1
  rw [hmachine]
  decide +kernel

/-- A root that is not there makes the scan of another root fail, in which the analyzer can be
started and finds something. -/
theorem missing_root_fails_scan :
    let m := counters [(["good"], .directory)]
    let ended (roots : List Path) :=
      m.run (follow roots.length (({ settings := {} } : Scanner).start roots []))
    m.CanStart (.checkRoot {} ⟨"/good"⟩) ∧
      (ended [⟨"/good"⟩]).1.progress = .completed 1 1 ∧
      (ended [⟨"/missing"⟩, ⟨"/good"⟩]).1.progress = .failed ∧
      (ended [⟨"/missing"⟩, ⟨"/good"⟩]).2.state = 0 := by
  intro m ended
  refine ⟨canStart_counters (by decide +kernel), ?_, ?_, ?_⟩ <;> decide +kernel

end Scanner

end LintHost
