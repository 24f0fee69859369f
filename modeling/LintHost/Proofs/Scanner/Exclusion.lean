/-
LintHost/Proofs/Scanner/Exclusion.lean

One scan at a time.  Several parties may ask a scanner for scans at once, each
request under a number of its own.  A *desk* keeps the flag by which they are told
apart from each other: a request that finds it raised is refused, any other raises
it, and it is lowered whenever a request that has raised it comes to an end, whether
others still wait or not.  A desk keeps every scan that waits, so that nothing but
the flag keeps a second one out.

Main result: at most one scan ever waits, the flag is raised exactly while one does,
and the desk is the scanner whose pending scan it is (`one_scan_at_a_time`).  The
invariant that every happening preserves is `Guarded`.
-/
import LintHost.Proofs.Scanner.Contribution

namespace LintHost.Scanner

open Analyzer

/-! ### Desks -/

/-- What can happen where several parties share a scanner. -/
inductive Happening where
  /-- A scan is asked for under a number. -/
  | ask (who : Nat) (roots opened : List Path)
  /-- The run has ended that the scan under a number waits for. -/
  | reply (who : Nat) (r : Reply)
  /-- The scan under a number is dropped. -/
  | drop (who : Nat)
  | clearFile (file : Path)
  | clearAll
  | dispose

/-- A scanner that several parties share: what it shows and keeps, the flag, and the scans that
wait, by the number of their request. -/
structure Desk where
  rest : Scanner
  flag : Bool := false
  running : List (Nat × Scan) := []

/-- What comes of a happening. -/
structure Outcome where
  answer : Answer
  notices : List Notice := []
  desk : Desk

namespace Desk

/-- The scans that wait under other numbers. -/
def others (d : Desk) (who : Nat) : List (Nat × Scan) :=
  d.running.filter fun w => w.1 ≠ who

/-- What comes of a step of the scan under a number: it goes on waiting under the flag, or it is at
its end and lowers the flag. -/
def proceed (d : Desk) (who : Nat) (step : Step) : Outcome where
  answer := .progress step.progress
  notices := step.notices
  desk :=
    { rest := { step.scanner with pending := none }
      flag := step.scanner.isScanning
      running := (step.scanner.pending.toList.map (who, ·)) ++ d.others who }

/-- What comes of a happening. -/
def step (d : Desk) : Happening → Outcome
  | .ask who roots opened =>
    if d.flag then ⟨.progress .busy, [], d⟩ else d.proceed who (d.rest.start roots opened)
  | .reply who r =>
    match d.running.lookup who with
    | none => ⟨.progress .idle, [], d⟩
    | some scan => d.proceed who (({ d.rest with pending := some scan } : Scanner).receive r)
  | .drop who =>
    match d.running.lookup who with
    | none => ⟨.flag false, [], d⟩
    | some _ => ⟨.flag true, [], { d with flag := false, running := d.others who }⟩
  | .clearFile file =>
    ⟨.flag (d.rest.clearFile file).1, (d.rest.clearFile file).2.1,
      { d with rest := (d.rest.clearFile file).2.2 }⟩
  | .clearAll | .dispose => ⟨.nothing, d.rest.clearAll.1, { d with rest := d.rest.clearAll.2 }⟩

/-- The desk after happenings. -/
def after (d : Desk) (hs : List Happening) : Desk :=
  hs.foldl (fun d h => (d.step h).desk) d

/-- The scanner whose pending scan is the first one that waits. -/
def scanner (d : Desk) : Scanner :=
  { d.rest with pending := d.running.head?.map (·.2) }

/-- What a happening is to this scanner: nothing, if it is about a number under which no scan
waits. -/
def event? (d : Desk) : Happening → Option Event
  | .ask _ roots opened => some (.start roots opened)
  | .reply who r => (d.running.lookup who).map fun _ => .reply r
  | .drop who => (d.running.lookup who).map fun _ => .drop
  | .clearFile file => some (.clearFile file)
  | .clearAll => some .clearAll
  | .dispose => some .dispose

end Desk

/-- Whether a scan is over. -/
def Progress.isOver : Progress → Bool
  | .noRoots | .failed | .completed _ _ => true
  | .busy | .waiting _ | .idle => false

/-- Whether an answer tells the end of a request that was not refused. -/
def Happening.ends : Happening → Answer → Bool
  | .drop _, .flag dropped => dropped
  | _, .progress p => p.isOver
  | _, _ => false

/-- Whether a scan is asked for. -/
def Happening.asks : Happening → Bool
  | .ask _ _ _ => true
  | _ => false

/-! ### One scan at most -/

/-- A request to an idle scanner leaves a scan waiting, unless it is over at once. -/
theorem isScanning_start {s : Scanner} (h : s.pending = none) (roots opened : List Path) :
    (s.start roots opened).scanner.isScanning = !(s.start roots opened).progress.isOver := by
  have hi : s.isScanning = false := by simp [isScanning, h]
  unfold start
  rw [hi]
  cases roots with
  | nil => exact hi
  | cons root left => rfl

/-- A reply leaves its scan waiting, unless that is over. -/
theorem isScanning_receive {s : Scanner} {scan : Scan} (h : s.pending = some scan) (r : Reply) :
    (s.receive r).scanner.isScanning = !(s.receive r).progress.isOver := by
  simp only [receive, h]
  cases s.foundBy scan.root scan.opened r with
  | none => rfl
  | some ds => cases scan.left <;> rfl

/-- The flag is down and no scan waits, or it is raised and one does. -/
inductive Desk.Guarded : Desk → Prop
  | idle {rest : Scanner} : rest.pending = none → Guarded ⟨rest, false, []⟩
  | busy {rest : Scanner} {who : Nat} {scan : Scan} :
      rest.pending = none → Guarded ⟨rest, true, [(who, scan)]⟩

namespace Desk

variable {d : Desk}

/-- A step of the only scan there may be leaves one scan under the flag, or none. -/
theorem guarded_proceed {who : Nat} (ho : d.others who = []) (step : Step) :
    (d.proceed who step).desk.Guarded := by
  unfold proceed
  rw [ho, List.append_nil]
  rcases h : step.scanner.pending with - | scan
  · have hf : step.scanner.isScanning = false := by simp [isScanning, h]
    rw [hf]
    exact .idle rfl
  · have hf : step.scanner.isScanning = true := by simp [isScanning, h]
    rw [hf]
    exact .busy rfl

/-- What such a step makes of the scanner is what it makes of the desk. -/
theorem scanner_proceed {who : Nat} (ho : d.others who = []) (step : Step) :
    (d.proceed who step).desk.scanner = step.scanner := by
  obtain ⟨progress, notices, settings, tracked, published, pending⟩ := step
  unfold proceed scanner
  rw [ho]
  cases pending with
  | none => rfl
  | some scan => rfl

theorem scanner_idle {rest : Scanner} (h : rest.pending = none) :
    scanner ⟨rest, false, []⟩ = rest := by
  show { rest with pending := none } = rest
  rw [← h]

theorem lookup_busy (who asked : Nat) (scan : Scan) :
    [(who, scan)].lookup asked = if asked = who then some scan else none := by
  by_cases h : asked = who
  · simp [h]
  · rw [if_neg h, List.lookup_cons, beq_false_of_ne h]
    rfl

theorem others_busy (rest : Scanner) (flag : Bool) (who : Nat) (scan : Scan) :
    others ⟨rest, flag, [(who, scan)]⟩ who = [] := by
  simp [others]

/-- A step of the only scan there may be leaves it waiting, unless it is over. -/
theorem running_proceed {who : Nat} (ho : d.others who = []) {step : Step}
    (hs : step.scanner.isScanning = !step.progress.isOver) :
    (step.progress.isOver = true → (d.proceed who step).desk.running = []) ∧
      (step.progress.isOver = false →
        (d.proceed who step).desk.running.map (·.1) = [who]) := by
  unfold proceed
  rw [ho, List.append_nil]
  rcases h : step.scanner.pending with - | scan
  · have hover : step.progress.isOver = true := by simpa [isScanning, h] using hs
    simp [hover]
  · have hover : step.progress.isOver = false := by simpa [isScanning, h] using hs
    simp [hover]

/-- What a happening may do to the scans that wait: none waits when a request that was not refused
has ended, and else the one that waits goes on waiting. -/
structure Keeps (d : Desk) (p : Happening) (o : Outcome) : Prop where
  ended : p.ends o.answer = true → o.desk.running = []
  kept : p.ends o.answer = false → d.running ≠ [] →
    o.desk.running.map (·.1) = d.running.map (·.1)
  free : p.asks = false → d.running = [] → o.desk.running = []

theorem keeps_of_running_eq {p : Happening} {o : Outcome} (h : o.desk.running = d.running)
    (hp : p.ends o.answer = false) : Keeps d p o where
  ended := fun he => by rw [hp] at he; cases he
  kept := fun _ _ => by rw [h]
  free := fun _ hr => by rw [h, hr]

/-- An outcome that is what the scanner makes of an event. -/
structure Mirrors (d : Desk) (p : Happening) (e : Event) : Prop where
  guarded : (d.step p).desk.Guarded
  answer : (d.step p).answer = (d.scanner.handle e).answer
  notices : (d.step p).notices = (d.scanner.handle e).notices
  scanner : (d.step p).desk.scanner = (d.scanner.handle e).scanner

theorem mirrors_of_proceed {p : Happening} {e : Event} {who : Nat} {step : Step}
    (hd : d.step p = d.proceed who step) (hs : d.scanner.handle e = .ofStep step)
    (ho : d.others who = []) : Mirrors d p e := by
  refine ⟨?_, ?_, ?_, ?_⟩
  · rw [hd]
    exact guarded_proceed ho step
  · rw [hd, hs]
    rfl
  · rw [hd, hs]
    rfl
  · rw [hd, hs]
    exact scanner_proceed ho step

/-- What is given up is given up in the same way whatever scan waits. -/
theorem Guarded.mirrors_clearFile (h : d.Guarded) (file : Path) :
    Mirrors d (.clearFile file) (.clearFile file) := by
  have hs : (d.rest.clearFile file).2.2.pending = d.rest.pending := by rw [scanner_clearFile]
  have hr : (d.scanner.clearFile file).1 = (d.rest.clearFile file).1 ∧
      (d.scanner.clearFile file).2.1 = (d.rest.clearFile file).2.1 := by
    unfold clearFile scanner
    dsimp only
    split <;> exact ⟨rfl, rfl⟩
  have hw : Desk.scanner { d with rest := (d.rest.clearFile file).2.2 }
      = (d.scanner.clearFile file).2.2 := by
    rw [scanner_clearFile, Desk.scanner, scanner_clearFile]
    rfl
  refine ⟨?_, congrArg Answer.flag hr.1.symm, hr.2.symm, hw⟩
  cases h with
  | idle hp => exact .idle (hs.trans hp)
  | busy hp => exact .busy (hs.trans hp)

theorem Guarded.clearAll (h : d.Guarded) : Guarded { d with rest := d.rest.clearAll.2 } := by
  cases h with
  | idle hp => exact .idle hp
  | busy hp => exact .busy hp

/-- What a happening may come to at a desk: what the scanner makes of it, or, where it is about a
number under which no scan waits, nothing. -/
def Accounted (d : Desk) (p : Happening) : Prop :=
  Keeps d p (d.step p) ∧
    ((∃ e, d.event? p = some e ∧ Mirrors d p e) ∨
      d.event? p = none ∧ (d.step p).notices = [] ∧ (d.step p).desk = d)

theorem accounted_of_step_eq {p : Happening} {a : Answer} (hd : d.step p = ⟨a, [], d⟩)
    (he : d.event? p = none) (hp : p.ends a = false) : d.Accounted p := by
  refine ⟨keeps_of_running_eq (by rw [hd]) (by rw [hd]; exact hp), .inr ⟨he, ?_, ?_⟩⟩ <;> rw [hd]

/-- The scan that waits under a number is the only one, and waits under the flag. -/
theorem Guarded.exists_of_lookup {who : Nat} {scan : Scan} (h : d.Guarded)
    (hl : d.running.lookup who = some scan) :
    ∃ rest, rest.pending = none ∧ d = ⟨rest, true, [(who, scan)]⟩ := by
  cases h with
  | idle hp => cases hl
  | @busy rest asked scan' hp =>
    change [(asked, scan')].lookup who = some scan at hl
    rw [lookup_busy] at hl
    split at hl
    · next hw =>
      obtain rfl := Option.some.inj hl
      exact ⟨rest, hp, by rw [hw]⟩
    · cases hl

theorem Guarded.accounted_ask (h : d.Guarded) (who : Nat) (roots opened : List Path) :
    d.Accounted (.ask who roots opened) := by
  cases h with
  | @idle rest hp =>
    have hs : (scanner ⟨rest, false, []⟩).handle (.start roots opened)
        = .ofStep (rest.start roots opened) := by
      rw [scanner_idle hp]
      rfl
    refine ⟨⟨fun he => ?_, fun _ hr => absurd rfl hr, fun ha => by cases ha⟩,
      .inl ⟨_, rfl, mirrors_of_proceed rfl hs rfl⟩⟩
    exact (running_proceed rfl (isScanning_start hp roots opened)).1 he
  | busy hp =>
    -- the flag refuses the request, as the scanner does that waits for a run
    exact ⟨keeps_of_running_eq rfl rfl, .inl ⟨_, rfl, .busy hp, rfl, rfl, rfl⟩⟩

theorem Guarded.accounted_reply (h : d.Guarded) (who : Nat) (r : Reply) :
    d.Accounted (.reply who r) := by
  rcases hl : d.running.lookup who with - | scan
  · have hd : d.step (.reply who r) = ⟨.progress .idle, [], d⟩ := by simp only [Desk.step, hl]
    exact accounted_of_step_eq hd (by simp [event?, hl]) rfl
  obtain ⟨rest, -, rfl⟩ := h.exists_of_lookup hl
  have ho := others_busy rest true who scan
  have hd : Desk.step ⟨rest, true, [(who, scan)]⟩ (.reply who r)
      = proceed ⟨rest, true, [(who, scan)]⟩ who
          (({ rest with pending := some scan } : Scanner).receive r) := by
    simp only [Desk.step, hl]
  have hr := running_proceed ho
    (isScanning_receive (s := { rest with pending := some scan }) rfl r)
  refine ⟨?_, .inl ⟨.reply r, by simp [event?], mirrors_of_proceed hd rfl ho⟩⟩
  rw [hd]
  exact ⟨hr.1, fun he _ => hr.2 he, fun _ h => by cases h⟩

theorem Guarded.accounted_drop (h : d.Guarded) (who : Nat) : d.Accounted (.drop who) := by
  rcases hl : d.running.lookup who with - | scan
  · have hd : d.step (.drop who) = ⟨.flag false, [], d⟩ := by simp only [Desk.step, hl]
    exact accounted_of_step_eq hd (by simp [event?, hl]) rfl
  obtain ⟨rest, hp, rfl⟩ := h.exists_of_lookup hl
  have hd : Desk.step ⟨rest, true, [(who, scan)]⟩ (.drop who)
      = ⟨.flag true, [], ⟨rest, false, []⟩⟩ := by
    simp only [Desk.step, hl, others_busy]
  refine ⟨?_, .inl ⟨.drop, by simp [event?], ?_⟩⟩
  · rw [hd]
    exact ⟨fun _ => rfl, (fun he => by cases he), fun _ _ => rfl⟩
  · refine ⟨?_, ?_, ?_, ?_⟩ <;> rw [hd]
    · exact .idle hp
    · rfl
    · rfl
    · rfl

/-- **The flag makes a desk the scanner** whose pending scan is the one that waits: what happens is
what this scanner makes of it, or it is about a number under which no scan waits and changes
nothing. -/
theorem Guarded.step (h : d.Guarded) (p : Happening) : d.Accounted p := by
  cases p with
  | ask who roots opened => exact h.accounted_ask who roots opened
  | reply who r => exact h.accounted_reply who r
  | drop who => exact h.accounted_drop who
  | clearFile file =>
    exact ⟨keeps_of_running_eq rfl rfl, .inl ⟨_, rfl, h.mirrors_clearFile file⟩⟩
  | clearAll =>
    exact ⟨keeps_of_running_eq rfl rfl, .inl ⟨_, rfl, h.clearAll, rfl, rfl, rfl⟩⟩
  | dispose =>
    exact ⟨keeps_of_running_eq rfl rfl, .inl ⟨_, rfl, h.clearAll, rfl, rfl, rfl⟩⟩

theorem Guarded.next (h : d.Guarded) (p : Happening) : (d.step p).desk.Guarded := by
  rcases (h.step p).2 with ⟨e, -, hm⟩ | ⟨-, -, hd⟩
  · exact hm.guarded
  · rw [hd]
    exact h

/-! ### Any happenings -/

/-- The events that happenings are to the scanner. -/
def events (d : Desk) : List Happening → List Event
  | [] => []
  | p :: ps => (d.event? p).toList ++ (d.step p).desk.events ps

theorem Guarded.after (h : d.Guarded) (ps : List Happening) :
    (d.after ps).Guarded ∧ (d.after ps).scanner = d.scanner.after (d.events ps) := by
  induction ps generalizing d with
  | nil => exact ⟨h, rfl⟩
  | cons p ps ih =>
    obtain ⟨hg, hs⟩ := ih (h.next p)
    refine ⟨hg, ?_⟩
    show ((d.step p).desk.after ps).scanner = _
    rw [hs, events, after_append]
    rcases (h.step p).2 with ⟨e, he, hm⟩ | ⟨he, -, hd⟩
    · rw [he, hm.scanner]
      rfl
    · rw [he, hd]
      rfl

/-- As long as nobody asks for a scan, none begins. -/
theorem Guarded.running_after (h : d.Guarded) (hr : d.running = []) {ps : List Happening}
    (hp : ∀ p ∈ ps, p.asks = false) : (d.after ps).running = [] := by
  induction ps generalizing d with
  | nil => exact hr
  | cons p ps ih =>
    exact ih (h.next p) ((h.step p).1.free (hp p List.mem_cons_self) hr)
      fun q hq => hp q (List.mem_cons_of_mem _ hq)

/-- Where no scan waits, a request is not refused. -/
theorem Guarded.answer_ask (h : d.Guarded) (hr : d.running = []) (who : Nat)
    (roots opened : List Path) : (d.step (.ask who roots opened)).answer ≠ .progress .busy := by
  cases h with
  | busy hp => cases hr
  | @idle rest hp =>
    have hi : rest.isScanning = false := by simp [isScanning, hp]
    show Answer.progress (rest.start roots opened).progress ≠ _
    unfold start
    rw [hi]
    cases roots with
    | nil => exact fun h => by cases h
    | cons root left => exact fun h => by cases h

theorem Guarded.flag_iff (h : d.Guarded) : d.flag = true ↔ d.running ≠ [] := by
  cases h with
  | idle hp => simp
  | busy hp => simp

theorem Guarded.length_running_le (h : d.Guarded) : d.running.length ≤ 1 := by
  cases h with
  | idle hp => exact Nat.zero_le 1
  | busy hp => exact Nat.le_refl 1

theorem Guarded.isScanning_scanner (h : d.Guarded) : d.scanner.isScanning = d.flag := by
  cases h with
  | idle hp => rfl
  | busy hp => rfl

end Desk

open Desk in
/-- **A scanner runs one scan at a time**, whoever asks for how many and whatever else happens.  At
most one scan waits, the flag is raised exactly while one does, and what the flag admits is the
pending scan of the scanner.  A request while one waits is refused and changes nothing, and nothing
but the end of the scan that waits lowers the flag.  However a scan ends, the next request is not
refused. -/
theorem one_scan_at_a_time (settings : Settings) (happenings : List Happening) :
    let new : Desk := { rest := { settings } }
    let d := new.after happenings
    d.running.length ≤ 1 ∧
    (d.flag = true ↔ d.running ≠ []) ∧
    d.scanner.isScanning = d.flag ∧
    d.scanner = ({ settings } : Scanner).after (new.events happenings) ∧
    (∀ p e, d.event? p = some e → (d.step p).answer = (d.scanner.handle e).answer ∧
      (d.step p).notices = (d.scanner.handle e).notices ∧
      (d.step p).desk.scanner = (d.scanner.handle e).scanner) ∧
    (∀ who roots opened, d.running ≠ [] →
      d.step (.ask who roots opened) = ⟨.progress .busy, [], d⟩) ∧
    (∀ p, d.running ≠ [] → p.ends (d.step p).answer = false →
      (d.step p).desk.flag = true ∧
      (d.step p).desk.running.map (·.1) = d.running.map (·.1)) ∧
    (∀ p, p.ends (d.step p).answer = true → ∀ later, (∀ q ∈ later, q.asks = false) →
      ∀ who roots opened,
        (((d.step p).desk.after later).step (.ask who roots opened)).answer ≠ .progress .busy) := by
  intro new d
  have hnew : new.Guarded := .idle rfl
  obtain ⟨h, hs⟩ := hnew.after happenings
  refine ⟨h.length_running_le, h.flag_iff, h.isScanning_scanner, hs, ?_, ?_, ?_, ?_⟩
  · intro p e he
    rcases (h.step p).2 with ⟨e', he', hm⟩ | ⟨hn, -⟩
    · obtain rfl : e' = e := Option.some.inj (he'.symm.trans he)
      exact ⟨hm.answer, hm.notices, hm.scanner⟩
    · rw [hn] at he
      cases he
  · intro who roots opened hr
    show (if d.flag then _ else _) = _
    rw [if_pos (h.flag_iff.2 hr)]
  · intro p hr he
    have hk := (h.step p).1.kept he hr
    refine ⟨(h.next p).flag_iff.2 ?_, hk⟩
    intro hnil
    rw [hnil] at hk
    exact hr (List.map_eq_nil_iff.1 hk.symm)
  · intro p he later hl who roots opened
    have hr := (h.next p).running_after ((h.step p).1.ended he) hl
    exact ((h.next p).after later).1.answer_ask hr who roots opened

open Desk in
/-- Two requests come at once.  The second one is refused, and dropping it does not make room for
a third one; dropping the first one does. -/
theorem one_scan_at_a_time_of_dropped :
    let d : Desk := ({ rest := { settings := {} } } : Desk).after
      [.ask 1 [⟨"/ws1"⟩, ⟨"/ws2"⟩] [], .ask 2 [⟨"/ws1"⟩] [], .reply 1 (.ok "[]")]
    d.step (.ask 3 [⟨"/ws1"⟩] []) = ⟨.progress .busy, [], d⟩ ∧
    (d.step (.drop 2)).desk.flag = true ∧
    (((d.step (.drop 1)).desk.after [.clearAll]).step (.ask 3 [⟨"/ws1"⟩] [])).answer
      ≠ .progress .busy := by
  intro d
  obtain ⟨-, -, -, -, -, hbusy, hkept, hfree⟩ := one_scan_at_a_time {}
    [.ask 1 [⟨"/ws1"⟩, ⟨"/ws2"⟩] [], .ask 2 [⟨"/ws1"⟩] [], .reply 1 (.ok "[]")]
  have hr : d.running ≠ [] := by decide +kernel
  refine ⟨hbusy 3 _ _ hr, (hkept (.drop 2) hr (by decide +kernel)).1, ?_⟩
  exact hfree (.drop 1) (by decide +kernel) [.clearAll] (by simp [Happening.asks]) 3 _ _

end LintHost.Scanner
