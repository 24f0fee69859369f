/-
LintHost/Proofs/Scanner/Events.lean

What can happen to a scanner, and what comes of it, one event after the other.  A
scan is suspended whenever it waits for a reply; everything else can happen in
between.  What happens in between is an *aside*: a refused request, or something
that makes the scanner give up what it shows (`settle`).  The scan goes on waiting
all the while (`after_asides`).

A *turn* of a scan is one of its replies with the asides before it, so that a scan
of n roots takes n turns.  An event keeps what the roots gave to the last completed
scan, unless it completes another one or makes the scanner forget everything
(`published_handle`).
-/
import LintHost.Scanner.Basic

namespace LintHost.Scanner

open Analyzer

/-- What can happen to a scanner. -/
inductive Event where
  /-- A scan of some roots is asked for while some files are open. -/
  | start (roots opened : List Path)
  /-- The run of the analyzer that the scan waits for has ended. -/
  | reply (r : Reply)
  /-- The scan under way is dropped. -/
  | drop
  /-- A file is handed over. -/
  | clearFile (file : Path)
  /-- Everything is to be taken down. -/
  | clearAll
  /-- The scanner is no longer used. -/
  | dispose

/-- What the one behind an event is told. -/
inductive Answer where
  | progress (p : Progress)
  | flag (b : Bool)
  | nothing
  deriving DecidableEq, Repr

/-- What comes of an event: the answer to it, what the board is told, and the scanner
afterwards. -/
structure Response where
  answer : Answer
  notices : List Notice := []
  scanner : Scanner

def Response.ofStep (s : Step) : Response :=
  ⟨.progress s.progress, s.notices, s.scanner⟩

/-- What comes of an event. -/
def handle (s : Scanner) : Event → Response
  | .start roots opened => .ofStep (s.start roots opened)
  | .reply r => .ofStep (s.receive r)
  | .drop => ⟨.flag s.drop.1, [], s.drop.2⟩
  | .clearFile file => ⟨.flag (s.clearFile file).1, (s.clearFile file).2.1, (s.clearFile file).2.2⟩
  | .clearAll | .dispose => ⟨.nothing, s.clearAll.1, s.clearAll.2⟩

/-- What comes of events one after the other. -/
def trace : Scanner → List Event → List Response
  | _, [] => []
  | s, e :: events => s.handle e :: trace (s.handle e).scanner events

/-- The scanner after some events. -/
def after (s : Scanner) (events : List Event) : Scanner :=
  events.foldl (fun s e => (s.handle e).scanner) s

variable {s : Scanner} {e : Event}

theorem after_append (s : Scanner) (first second : List Event) :
    s.after (first ++ second) = (s.after first).after second :=
  List.foldl_append

theorem trace_append (s : Scanner) (first second : List Event) :
    s.trace (first ++ second) = s.trace first ++ (s.after first).trace second := by
  induction first generalizing s with
  | nil => rfl
  | cons e first ih =>
    show s.handle e :: trace _ (first ++ second) = _
    rw [ih]
    rfl

/-- The last response ends the trace, and its scanner is the one afterwards. -/
theorem getLast?_trace_concat (s : Scanner) (events : List Event) (e : Event) :
    (s.trace (events ++ [e])).getLast? = some ((s.after events).handle e) := by
  rw [trace_append]
  exact List.getLast?_concat

theorem scanner_of_getLast?_trace {events : List Event} {r : Response}
    (h : (s.trace events).getLast? = some r) : r.scanner = s.after events := by
  rcases events.eq_nil_or_concat with rfl | ⟨first, e, rfl⟩
  · cases h
  · rw [List.concat_eq_append, getLast?_trace_concat] at h
    rw [List.concat_eq_append, after_append, ← Option.some.inj h]
    rfl

/-! ### Asides -/

/-- Whether an event can happen while a scan goes on waiting. -/
def Event.isAside : Event → Bool
  | .reply _ | .drop => false
  | _ => true

/-- Whether an event makes the scanner forget everything. -/
def Event.forgets : Event → Bool
  | .clearAll | .dispose => true
  | _ => false

theorem eq_of_forgets {e : Event} (h : e.forgets = true) : e = .clearAll ∨ e = .dispose := by
  cases e with
  | clearAll => exact .inl rfl
  | dispose => exact .inr rfl
  | start roots opened => cases h
  | reply r => cases h
  | drop => cases h
  | clearFile file => cases h

/-- Whether an event takes down whatever is shown for a file. -/
def Event.takesDown : Event → Path → Bool
  | .clearFile file, p => p.same file.normalize
  | .clearAll, _ | .dispose, _ => true
  | _, _ => false

/-- The scanner after it has given up what an event makes it give up. -/
def settle (s : Scanner) : Event → Scanner
  | .clearFile file => (s.clearFile file).2.2
  | .clearAll | .dispose => s.clearAll.2
  | _ => s

theorem filter_of_not_contains {paths : List Path} {p : Path} (h : ¬ contains paths p = true) :
    (paths.filter fun q => !q.same p) = paths := by
  rw [List.filter_eq_self]
  intro q hq
  simp only [contains, List.any_eq_true, not_exists, not_and, Bool.not_eq_true] at h
  rw [h q hq]
  rfl

/-- Whether or not a file is shown, what is left of it is nothing and all others are left. -/
theorem scanner_clearFile (s : Scanner) (file : Path) :
    (s.clearFile file).2.2
      = { s with tracked := s.tracked.filter fun p => !p.same file.normalize } := by
  by_cases h : contains s.tracked file.normalize = true
  · simp only [clearFile, if_pos h]
  · simp only [clearFile, if_neg h, filter_of_not_contains h]

/-- What stays tracked is what is not taken down. -/
theorem tracked_settle (s : Scanner) (e : Event) :
    (s.settle e).tracked = s.tracked.filter fun p => !e.takesDown p := by
  cases e with
  | clearFile file =>
    show (s.clearFile file).2.2.tracked = _
    rw [scanner_clearFile]
    rfl
  | clearAll => exact (List.filter_eq_nil_iff.2 fun _ _ => Bool.false_ne_true).symm
  | dispose => exact (List.filter_eq_nil_iff.2 fun _ _ => Bool.false_ne_true).symm
  | _ => exact (List.filter_eq_self.2 fun _ _ => rfl).symm

theorem published_settle (s : Scanner) (e : Event) :
    (s.settle e).published = if e.forgets then [] else s.published := by
  cases e with
  | clearFile file =>
    show (s.clearFile file).2.2.published = s.published
    rw [scanner_clearFile]
  | _ => rfl

@[simp] theorem settings_settle (s : Scanner) (e : Event) :
    (s.settle e).settings = s.settings := by
  cases e with
  | clearFile file =>
    show (s.clearFile file).2.2.settings = s.settings
    rw [scanner_clearFile]
  | _ => rfl

@[simp] theorem pending_settle (s : Scanner) (e : Event) : (s.settle e).pending = s.pending := by
  cases e with
  | clearFile file =>
    show (s.clearFile file).2.2.pending = s.pending
    rw [scanner_clearFile]
  | _ => rfl

/-- What is given up does not depend on the scan under way. -/
theorem settle_with_pending (s : Scanner) (p : Option Scan) (e : Event) :
    ({ s with pending := p } : Scanner).settle e = { s.settle e with pending := p } := by
  cases e with
  | clearFile file =>
    show (clearFile _ file).2.2 = { (s.clearFile file).2.2 with pending := p }
    rw [scanner_clearFile, scanner_clearFile]
  | _ => rfl

theorem foldl_settle_with_pending (s : Scanner) (p : Option Scan) (events : List Event) :
    events.foldl settle ({ s with pending := p } : Scanner)
      = { events.foldl settle s with pending := p } := by
  induction events generalizing s with
  | nil => rfl
  | cons e events ih => rw [List.foldl_cons, List.foldl_cons, settle_with_pending, ih]

theorem settings_foldl_settle (s : Scanner) (events : List Event) :
    (events.foldl settle s).settings = s.settings := by
  induction events generalizing s with
  | nil => rfl
  | cons e events ih => rw [List.foldl_cons, ih, settings_settle]

theorem pending_foldl_settle (s : Scanner) (events : List Event) :
    (events.foldl settle s).pending = s.pending := by
  induction events generalizing s with
  | nil => rfl
  | cons e events ih => rw [List.foldl_cons, ih, pending_settle]

/-- While a scan waits, an aside does no more than it gives up. -/
theorem scanner_handle_aside (h : s.isScanning = true) (ha : e.isAside = true) :
    (s.handle e).scanner = s.settle e := by
  cases e with
  | start roots opened =>
    show (s.start roots opened).scanner = s
    rw [start_of_pending h]
  | clearFile file => rfl
  | clearAll => rfl
  | dispose => rfl
  | reply r => cases ha
  | drop => cases ha

theorem isScanning_settle (s : Scanner) (e : Event) : (s.settle e).isScanning = s.isScanning := by
  rw [isScanning, isScanning, pending_settle]

/-- Asides leave a scan waiting and do no more than they give up. -/
theorem after_asides {events : List Event} (h : s.isScanning = true)
    (ha : ∀ e ∈ events, e.isAside = true) : s.after events = events.foldl settle s := by
  induction events generalizing s with
  | nil => rfl
  | cons e events ih =>
    have he : (s.handle e).scanner = s.settle e :=
      scanner_handle_aside h (ha e List.mem_cons_self)
    show (s.handle e).scanner.after events = events.foldl settle (s.settle e)
    rw [he]
    exact ih (by rw [isScanning_settle, h]) fun e he => ha e (List.mem_cons_of_mem _ he)

/-! ### Turns -/

/-- A reply to a scan, and what happens while the scan waits for it. -/
structure Turn where
  meanwhile : List Event
  reply : Reply
  aside : ∀ e ∈ meanwhile, e.isAside = true

def Turn.events (t : Turn) : List Event :=
  t.meanwhile ++ [.reply t.reply]

/-- A turn without anything else in it. -/
def Turn.plain (r : Reply) : Turn :=
  ⟨[], r, fun _ h => absurd h List.not_mem_nil⟩

/-- Whether a scan goes on after a reply. -/
def goesOn : Reply → Bool
  | .ok _ => true
  | .error failure => !failure.endsScan

/-- A request to an idle scanner starts a scan of the roots, if there are any. -/
theorem scanner_handle_start (h : s.isScanning = false) (root : Path) (left opened : List Path) :
    (s.handle (.start (root :: left) opened)).scanner
      = { s with pending := some ⟨root :: left, root, left, opened.map Path.normalize, []⟩ } := by
  show (s.start (root :: left) opened).scanner = _
  unfold start
  rw [h]
  rfl

/-! ### What an event can change -/

/-- Whether an event has completed a scan. -/
def Response.completes (r : Response) : Bool :=
  match r.answer with
  | .progress (.completed _ _) => true
  | _ => false

/-- A response that changes nothing of what is shown or kept. -/
structure Response.Quiet (s : Scanner) (r : Response) : Prop where
  completes : r.completes = false
  notices : r.notices = []
  tracked : r.scanner.tracked = s.tracked
  published : r.scanner.published = s.published

theorem quiet_start (s : Scanner) (roots opened : List Path) :
    (s.handle (.start roots opened)).Quiet s := by
  show (Response.ofStep (s.start roots opened)).Quiet s
  unfold start
  split
  · exact ⟨rfl, rfl, rfl, rfl⟩
  · split <;> exact ⟨rfl, rfl, rfl, rfl⟩

theorem quiet_drop (s : Scanner) : (s.handle .drop).Quiet s := ⟨rfl, rfl, rfl, rfl⟩

/-- A reply changes nothing, or it is the last one and publishes what has been found. -/
theorem quiet_or_publish (s : Scanner) (r : Reply) :
    (s.handle (.reply r)).Quiet s ∨
      ∃ scan ds, s.pending = some scan ∧ s.foundBy scan.root scan.opened r = some ds ∧
        s.receive r = s.publish scan.roots ((scan.root, ds) :: scan.found) := by
  show (Response.ofStep (s.receive r)).Quiet s ∨ _
  unfold receive
  split
  · exact .inl ⟨rfl, rfl, rfl, rfl⟩
  · next scan hp =>
    split
    · exact .inl ⟨rfl, rfl, rfl, rfl⟩
    · next ds hd =>
      dsimp only
      split
      · exact .inl ⟨rfl, rfl, rfl, rfl⟩
      · exact .inr ⟨scan, ds, hp, hd, rfl⟩

/-- What the roots gave to the last completed scan stays, unless an event completes another
scan or makes the scanner forget. -/
theorem published_handle (hc : (s.handle e).completes = false) (hf : e.forgets = false) :
    (s.handle e).scanner.published = s.published := by
  cases e with
  | start roots opened => exact (quiet_start s roots opened).published
  | reply r =>
    rcases quiet_or_publish s r with hq | ⟨scan, ds, -, -, he⟩
    · exact hq.published
    · have hr : (Response.ofStep (s.receive r)).completes = false := hc
      rw [he] at hr
      cases hr
  | drop => exact (quiet_drop s).published
  | clearFile file =>
    show (s.clearFile file).2.2.published = s.published
    rw [scanner_clearFile]
  | clearAll => cases hf
  | dispose => cases hf

theorem published_after {events : List Event} (hc : ∀ r ∈ s.trace events, r.completes = false)
    (hf : ∀ e ∈ events, e.forgets = false) : (s.after events).published = s.published := by
  induction events generalizing s with
  | nil => rfl
  | cons e events ih =>
    show ((s.handle e).scanner.after events).published = s.published
    rw [ih (fun r hr => hc r (List.mem_cons_of_mem _ hr))
        (fun e he => hf e (List.mem_cons_of_mem _ he)),
      published_handle (hc _ List.mem_cons_self) (hf e List.mem_cons_self)]

end LintHost.Scanner
