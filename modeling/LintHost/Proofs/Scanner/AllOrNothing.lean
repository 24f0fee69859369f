/-
LintHost/Proofs/Scanner/AllOrNothing.lean

How far a scan has come, and what it has done by then.  A scan that is asked of an
idle scanner asks for one run per root, in the order of the roots, and for the next
one only when the reply of the last one is in.  All it does until the last reply is
in is to remember what it has found: whatever else has changed by then is what the
asides have made the scanner give up (`Underway`).

Main result: a scan tells the board something exactly once, together with its last
reply, and only if it completes; one that is refused, fails or is dropped leaves
what is shown and what the roots gave to the last completed scan as they would be
without it (`scan_is_all_or_nothing`).
-/
import LintHost.Proofs.Scanner.Contribution
import Mathlib.Data.List.Induction

namespace LintHost.Scanner

open Analyzer

/-! ### Runs that are asked for -/

/-- The run of the analyzer that a response asks for. -/
def Response.call? (r : Response) : Option Invocation :=
  match r.answer with
  | .progress (.waiting call) => some call
  | _ => none

/-- The runs of the analyzer that are asked for in the course of events. -/
def calls (s : Scanner) (events : List Event) : List Invocation :=
  (s.trace events).filterMap Response.call?

theorem calls_append (s : Scanner) (first second : List Event) :
    s.calls (first ++ second) = s.calls first ++ (s.after first).calls second := by
  rw [calls, trace_append, List.filterMap_append]
  rfl

theorem calls_cons (s : Scanner) (e : Event) (events : List Event) :
    s.calls (e :: events) = (s.handle e).call?.toList ++ (s.handle e).scanner.calls events := by
  show ((s.handle e) :: _).filterMap Response.call? = _
  rw [List.filterMap_cons]
  cases (s.handle e).call? <;> rfl

variable {s : Scanner} {scan : Scan} {r : Reply}

/-- An aside asks for no run while a scan waits: it is refused, or it is no request. -/
theorem call?_handle_aside (h : s.isScanning = true) {e : Event} (ha : e.isAside = true) :
    (s.handle e).call? = none := by
  cases e with
  | start roots opened =>
    show (Response.ofStep (s.start roots opened)).call? = none
    rw [start_of_pending h]
    rfl
  | clearFile file => rfl
  | clearAll => rfl
  | dispose => rfl
  | reply r => cases ha
  | drop => cases ha

theorem calls_asides {events : List Event} (h : s.isScanning = true)
    (ha : ∀ e ∈ events, e.isAside = true) : s.calls events = [] := by
  induction events generalizing s with
  | nil => rfl
  | cons e events ih =>
    have he := ha e List.mem_cons_self
    rw [calls_cons, call?_handle_aside h he, scanner_handle_aside h he,
      ih (by rw [isScanning_settle, h]) fun e he => ha e (List.mem_cons_of_mem _ he)]
    rfl

/-! ### Replies -/

/-- A reply brings something for the root, unless it ends the scan. -/
theorem isSome_foundBy (s : Scanner) (root : Path) (opened : List Path) (r : Reply) :
    (s.foundBy root opened r).isSome = goesOn r := by
  cases r with
  | ok output =>
    rcases h : Report.decode output.toList with fault | found <;> simp [foundBy, goesOn, h]
  | error failure => cases failure <;> rfl

theorem exists_foundBy (s : Scanner) (root : Path) (opened : List Path) {r : Reply}
    (hg : goesOn r = true) : ∃ ds, s.foundBy root opened r = some ds := by
  rw [← Option.isSome_iff_exists, isSome_foundBy, hg]

/-- A reply that ends the scan changes nothing. -/
theorem handle_reply_of_ended (hp : s.pending = some scan) (hg : goesOn r = false) :
    s.handle (.reply r) = ⟨.progress .failed, [], { s with pending := none }⟩ := by
  have hn : s.foundBy scan.root scan.opened r = none := by
    rw [← Option.isNone_iff_eq_none, ← Option.not_isSome, isSome_foundBy, hg]
    rfl
  show Response.ofStep (s.receive r) = _
  simp only [receive, hp, hn]
  rfl

/-- Any other reply but the last one makes the scan ask for the run in the next root, and is
remembered. -/
theorem handle_reply_of_left (hp : s.pending = some scan) (hg : goesOn r = true) {next : Path}
    {left : List Path} (hl : scan.left = next :: left) :
    ∃ found, s.handle (.reply r)
      = ⟨.progress (.waiting (.checkRoot s.settings next)), [],
          { s with pending := some { scan with root := next, left, found } }⟩ := by
  obtain ⟨ds, hd⟩ := s.exists_foundBy scan.root scan.opened hg
  refine ⟨(scan.root, ds) :: scan.found, ?_⟩
  show Response.ofStep (s.receive r) = _
  simp only [receive, hp, hd, hl]
  rfl

/-- The last reply makes the scan publish. -/
theorem handle_reply_of_last (hp : s.pending = some scan) (hg : goesOn r = true)
    (hl : scan.left = []) :
    ∃ files ds s', s.handle (.reply r)
        = ⟨.progress (.completed files ds.length), [.setAll ds true], s'⟩ ∧
      s'.isScanning = false := by
  obtain ⟨ds, hd⟩ := s.exists_foundBy scan.root scan.opened hg
  let found := (scan.root, ds) :: scan.found
  have hr : s.receive r = s.publish scan.roots found := by
    simp only [receive, hp, hd, hl, found]
  have hh : s.handle (.reply r) = Response.ofStep (s.publish scan.roots found) := by
    rw [← hr]
    rfl
  exact ⟨_, _, _, hh, rfl⟩

/-! ### Scans under way -/

/-- A scan of `roots` that was asked of `s` waits for the root at the place `i` after some events;
the asides among them alone would have made `rest` of the scanner. -/
structure Underway (s : Scanner) (roots : List Path) (i : Nat) (events : List Event)
    (rest : Scanner) : Prop where
  calls : s.calls events = (roots.take (i + 1)).map (Invocation.checkRoot s.settings)
  settings : rest.settings = s.settings
  waits : ∃ scan, s.after events = { rest with pending := some scan } ∧
    scan.root :: scan.left = roots.drop i

variable {roots opened : List Path} {events : List Event} {rest : Scanner} {i : Nat}

/-- A scan asks for the run in its first root at once. -/
theorem handle_start_of_roots (h : s.isScanning = false) (root : Path) (left opened : List Path) :
    s.handle (.start (root :: left) opened)
      = ⟨.progress (.waiting (.checkRoot s.settings root)), [],
          { s with
            pending := some ⟨root :: left, root, left, opened.map Path.normalize, []⟩ }⟩ := by
  show Response.ofStep (s.start (root :: left) opened) = _
  unfold start
  rw [h]
  rfl

theorem underway_start (h : s.isScanning = false) (hne : roots ≠ []) (opened : List Path) :
    s.Underway roots 0 [.start roots opened] s := by
  cases roots with
  | nil => exact absurd rfl hne
  | cons root left =>
    have hs := handle_start_of_roots h root left opened
    refine ⟨?_, rfl, ⟨_, congrArg Response.scanner hs, rfl⟩⟩
    rw [calls_cons, hs]
    rfl

/-- Asides leave the scan under way; they make of the rest what they would make of it alone. -/
theorem Underway.asides (h : s.Underway roots i events rest) {meanwhile : List Event}
    (ha : ∀ e ∈ meanwhile, e.isAside = true) :
    s.Underway roots i (events ++ meanwhile) (meanwhile.foldl settle rest) := by
  obtain ⟨scan, hscan, hroots⟩ := h.waits
  have hw : (s.after events).isScanning = true := by
    rw [hscan]
    rfl
  refine ⟨?_, by rw [settings_foldl_settle, h.settings], ⟨scan, ?_, hroots⟩⟩
  · rw [calls_append, calls_asides hw ha, List.append_nil, h.calls]
  · rw [after_append, after_asides hw ha, hscan, foldl_settle_with_pending]

/-- A reply that goes on takes the scan to the next root, if there is one. -/
theorem Underway.next_reply (h : s.Underway roots i events rest) (hg : goesOn r = true)
    {next : Path} (hn : roots[i + 1]? = some next) :
    ∃ scan, (s.after events).handle (.reply r)
        = ⟨.progress (.waiting (.checkRoot s.settings next)), [],
            { rest with pending := some scan }⟩ ∧
      scan.root :: scan.left = roots.drop (i + 1) := by
  obtain ⟨scan, hscan, hroots⟩ := h.waits
  have hd : roots.drop (i + 1) = next :: roots.drop (i + 2) := by
    obtain ⟨hi, rfl⟩ := List.getElem?_eq_some_iff.1 hn
    exact List.drop_eq_getElem_cons hi
  have hl : scan.left = next :: roots.drop (i + 2) := by
    rw [← hd, ← List.tail_drop, ← hroots]
    rfl
  obtain ⟨found, hr⟩ := handle_reply_of_left (s := { rest with pending := some scan }) rfl hg hl
  rw [hscan, ← h.settings]
  exact ⟨_, hr, hd.symm⟩

theorem Underway.reply (h : s.Underway roots i events rest) (hg : goesOn r = true)
    (hn : i + 1 < roots.length) : s.Underway roots (i + 1) (events ++ [.reply r]) rest := by
  obtain ⟨scan, hr, hroots⟩ := h.next_reply hg (List.getElem?_eq_getElem hn)
  refine ⟨?_, h.settings, ⟨scan, ?_, hroots⟩⟩
  · rw [calls_append, h.calls, calls_cons, hr, List.take_succ_eq_append_getElem hn,
      List.map_append]
    rfl
  · rw [after_append]
    exact congrArg Response.scanner hr

/-- A reply that ends the scan leaves the rest. -/
theorem Underway.ended_reply (h : s.Underway roots i events rest)
    (hg : goesOn r = false) :
    (s.after events).handle (.reply r)
        = ⟨.progress .failed, [], { rest with pending := none }⟩ ∧
      s.calls (events ++ [.reply r]) = (roots.take (i + 1)).map (Invocation.checkRoot s.settings)
    := by
  obtain ⟨scan, hscan, -⟩ := h.waits
  have hr : (s.after events).handle (.reply r)
      = ⟨.progress .failed, [], { rest with pending := none }⟩ := by
    rw [hscan]
    exact handle_reply_of_ended rfl hg
  refine ⟨hr, ?_⟩
  rw [calls_append, calls_cons, hr, h.calls]
  exact List.append_nil _

/-- The reply for the last root completes the scan. -/
theorem Underway.last_reply (h : s.Underway roots i events rest) (hg : goesOn r = true)
    (hl : roots.length = i + 1) :
    (∃ files ds s', (s.after events).handle (.reply r)
        = ⟨.progress (.completed files ds.length), [.setAll ds true], s'⟩) ∧
      s.calls (events ++ [.reply r]) = roots.map (Invocation.checkRoot s.settings) := by
  obtain ⟨scan, hscan, hroots⟩ := h.waits
  have hleft : scan.left = [] := by
    have hn := congrArg List.length hroots
    rw [List.length_cons, List.length_drop, hl] at hn
    exact List.eq_nil_of_length_eq_zero (by omega)
  obtain ⟨files, ds, s', hr, -⟩ :=
    handle_reply_of_last (s := { rest with pending := some scan }) rfl hg hleft
  rw [← hscan] at hr
  refine ⟨⟨files, ds, s', hr⟩, ?_⟩
  rw [calls_append, calls_cons, hr, h.calls, List.take_of_length_le (Nat.le_of_eq hl)]
  exact List.append_nil _

/-- A scan is under way as long as it has had fewer turns than it has roots. -/
theorem underway_turns (hs : s.isScanning = false) {turns : List Turn}
    (hg : ∀ t ∈ turns, goesOn t.reply = true) (hl : turns.length < roots.length) :
    s.Underway roots turns.length (.start roots opened :: turns.flatMap Turn.events)
      ((turns.flatMap Turn.meanwhile).foldl settle s) := by
  -- the scan is followed from its start on, so the turns are taken from the end
  induction turns using List.reverseRecOn with
  | nil => exact underway_start hs (List.ne_nil_of_length_pos hl) opened
  | append_singleton turns t ih =>
    rw [List.length_append] at hl
    have h := ih (fun u hu => hg u (List.mem_append_left _ hu)) (Nat.lt_of_succ_lt hl)
    have ht := (h.asides t.aside).reply (hg t (List.mem_append_right _ List.mem_cons_self)) hl
    simpa [Turn.events] using ht

/-! ### All or nothing -/

/-- **A scan does all of its work at its end or none of it.**  It is refused, or there is nothing to
scan, or it asks for one run per root, in order, and for the next one by the reply of the last one.
As long as it waits nothing but asides has changed the scanner.  If it is dropped then, or if the
reply ends it, this stays so.  The board is told something only by the reply for the last root. -/
theorem scan_is_all_or_nothing (s : Scanner) (roots opened : List Path) :
    (s.isScanning = true → s.handle (.start roots opened) = ⟨.progress .busy, [], s⟩) ∧
    (s.isScanning = false → roots = [] →
      s.handle (.start roots opened) = ⟨.progress .noRoots, [], s⟩) ∧
    (s.isScanning = false → ∀ root, roots[0]? = some root →
      ∃ scan, s.handle (.start roots opened)
        = ⟨.progress (.waiting (.checkRoot s.settings root)), [],
            { s with pending := some scan }⟩) ∧
    (s.isScanning = false → ∀ (turns : List Turn) (meanwhile : List Event),
      (∀ t ∈ turns, goesOn t.reply = true) → (∀ e ∈ meanwhile, e.isAside = true) →
      turns.length < roots.length →
      let events := .start roots opened :: turns.flatMap Turn.events ++ meanwhile
      let rest := (turns.flatMap Turn.meanwhile ++ meanwhile).foldl settle s
      s.calls events = (roots.take (turns.length + 1)).map (Invocation.checkRoot s.settings) ∧
      (∃ scan, s.after events = { rest with pending := some scan }) ∧
      (s.after events).handle .drop = ⟨.flag true, [], rest⟩ ∧
      ∀ r,
        (goesOn r = false →
          (s.after events).handle (.reply r) = ⟨.progress .failed, [], rest⟩ ∧
          (s.calls (events ++ [.reply r])).length = turns.length + 1) ∧
        (goesOn r = true → ∀ next, roots[turns.length + 1]? = some next →
          ∃ scan, (s.after events).handle (.reply r)
            = ⟨.progress (.waiting (.checkRoot s.settings next)), [],
                { rest with pending := some scan }⟩) ∧
        (goesOn r = true → roots.length = turns.length + 1 →
          ∃ files ds s', (s.after events).handle (.reply r)
              = ⟨.progress (.completed files ds.length), [.setAll ds true], s'⟩ ∧
            s.calls (events ++ [.reply r]) = roots.map (Invocation.checkRoot s.settings))) ∧
    ∀ root, (Invocation.checkRoot s.settings root).input = none ∧
      (Invocation.checkRoot s.settings root).directory = some root ∧
      (Invocation.checkRoot s.settings root).arguments[3]? = some root.text := by
  refine ⟨?_, ?_, ?_, ?_, fun root => ⟨rfl, rfl, check_target _ (.root root) _⟩⟩
  · intro h
    show Response.ofStep (s.start roots opened) = _
    rw [start_of_pending h]
    rfl
  · rintro h rfl
    show Response.ofStep (s.start [] opened) = _
    unfold start
    rw [h]
    rfl
  · intro h root hr
    cases roots with
    | nil => cases hr
    | cons first left =>
      obtain rfl : first = root := Option.some.inj hr
      exact ⟨_, handle_start_of_roots h first left opened⟩
  · intro hs turns meanwhile hg ha hl events rest
    have h : s.Underway roots turns.length events rest := by
      have hstart : s.Underway roots turns.length
          (.start roots opened :: turns.flatMap Turn.events) _ := underway_turns hs hg hl
      have hu := hstart.asides ha
      rw [← List.foldl_append] at hu
      exact hu
    have hrest : { rest with pending := none } = rest := by
      have hp : rest.pending = none := by
        rw [pending_foldl_settle]
        simpa [isScanning] using hs
      rw [← hp]
    obtain ⟨scan, hscan, -⟩ := h.waits
    refine ⟨h.calls, ⟨scan, hscan⟩, ?_, fun r => ⟨?_, ?_, ?_⟩⟩
    · rw [hscan, ← hrest]
      rfl
    · intro hr
      obtain ⟨hfailed, hcalls⟩ := h.ended_reply hr
      rw [hrest] at hfailed
      refine ⟨hfailed, ?_⟩
      rw [hcalls, List.length_map, List.length_take, Nat.min_eq_left hl]
    · intro hr next hn
      obtain ⟨scan, hnext, -⟩ := h.next_reply hr hn
      exact ⟨scan, hnext⟩
    · intro hr hlast
      obtain ⟨⟨files, ds, s', hdone⟩, hcalls⟩ := h.last_reply hr hlast
      exact ⟨files, ds, s', hdone, hcalls⟩

/-- A file is handed over, the first root reports another one, a second scan is refused, and the
analyzer cannot be started in the second root. -/
theorem scan_is_all_or_nothing_of_missing_analyzer :
    let roots : List Path := [⟨"/ws1"⟩, ⟨"/ws2"⟩]
    let s := ({ settings := {} } : Scanner).after
      [.start roots [], .reply (reportOn ["a.py", "b.py"]), .reply (reportOn ["c.py"])]
    let events : List Event := [.start roots [], .clearFile ⟨"/ws1/a.py"⟩,
      .reply (reportOn ["d.py"]), .start roots []]
    let missing : Reply := .error (.start "ruff" "cannot find binary path")
    s.isScanning = false ∧
    ∃ rest, (s.after events).handle (.reply missing) = ⟨.progress .failed, [], rest⟩ ∧
      rest.tracked = [⟨"/ws1/b.py"⟩, ⟨"/ws2/c.py"⟩] ∧ rest.published = s.published ∧
      (s.calls (events ++ [.reply missing])).length = 2 := by
  intro roots s events missing
  let turn : Turn :=
    ⟨[.clearFile ⟨"/ws1/a.py"⟩], reportOn ["d.py"], by simp [Event.isAside]⟩
  have idle : s.isScanning = false := by decide +kernel
  obtain ⟨-, -, -, h, -⟩ := scan_is_all_or_nothing s roots []
  obtain ⟨-, -, -, hr⟩ := h idle [turn] [.start roots []] (by simp [turn, reportOn, goesOn])
    (by simp [Event.isAside]) (by simp [roots])
  obtain ⟨hfailed, hcalls⟩ := (hr missing).1 rfl
  exact ⟨idle, _, hfailed, by decide +kernel, by decide +kernel, hcalls⟩

end LintHost.Scanner
