/-
LintHost/Proofs/Scanner/Repetition.lean

How often a completed scan publishes a diagnostic.  What a scanner keeps of each root has
no repetitions, as long as no run reports the same diagnostic twice (`Distinct.after`):
what a root falls back on is a part of what it gave before.  But the list of a scan is put
together by going through the roots as they have been listed, and nothing compares what one
listing brings with what another one brings.

Main result: a diagnostic is published once for every listed root that is taken to have
given it.  So no diagnostic is published twice exactly if no two listings share one, and
a root that has given anything must not be listed twice (`published_once_per_listing`).
-/
import LintHost.Proofs.Scanner.AllOrNothing
import LintHost.Proofs.Scanner.Completion

namespace LintHost.Scanner

open Analyzer

/-! ### Reports without repetitions -/

/-- Whether an event is no report that brings the same diagnostic twice for the root that the
scanner waits for. -/
def BringsDistinct (s : Scanner) : Event → Prop
  | .reply r => ∀ scan ∈ s.pending, (reported s.settings.policy scan.opened scan.root r).Nodup
  | _ => True

/-- Whether no run reports the same diagnostic twice in the course of events. -/
def ReportsDistinct : Scanner → List Event → Prop
  | _, [] => True
  | s, e :: events => s.BringsDistinct e ∧ ReportsDistinct (s.handle e).scanner events

instance (s : Scanner) : DecidablePred s.BringsDistinct
  | .reply r => inferInstanceAs (Decidable (∀ scan ∈ s.pending, (reported _ _ _ r).Nodup))
  | .start _ _ | .drop | .clearFile _ | .clearAll | .dispose => .isTrue trivial

instance decidableReportsDistinct : (s : Scanner) → DecidablePred s.ReportsDistinct
  | _, [] => .isTrue trivial
  | s, e :: events =>
    have := decidableReportsDistinct (s.handle e).scanner events
    inferInstanceAs (Decidable (s.BringsDistinct e ∧ _))

/-- A scanner that keeps no diagnostic twice for one root. -/
structure Distinct (s : Scanner) : Prop where
  published : ∀ f ∈ s.published, f.2.Nodup
  found : ∀ scan, s.pending = some scan → ∀ f ∈ scan.found, f.2.Nodup

variable {s : Scanner}

theorem nodup_latest {found : Findings} (h : ∀ f ∈ found, f.2.Nodup) (root : Path) :
    (latest found root).Nodup := by
  unfold latest
  cases e : found.find? fun f => f.1.same root with
  | none => exact List.nodup_nil
  | some f => exact h f (List.mem_of_find?_eq_some e)

theorem distinct_new (settings : Settings) : ({ settings } : Scanner).Distinct where
  published := fun _ h => absurd h List.not_mem_nil
  found := fun _ h => by cases h

/-- A root brings no diagnostic twice, neither by its report nor by what it falls back on. -/
theorem Distinct.contribution (h : s.Distinct) {opened : List Path} {root : Path} {r : Reply}
    (hr : (reported s.settings.policy opened root r).Nodup) :
    (s.contribution opened root r).Nodup := by
  unfold Scanner.contribution
  split
  · exact (nodup_latest h.published root).filter _
  · exact hr

theorem Distinct.settle (h : s.Distinct) (e : Event) : (s.settle e).Distinct where
  published := by
    rw [published_settle]
    split
    · exact fun _ h => absurd h List.not_mem_nil
    · exact h.published
  found := by
    rw [pending_settle]
    exact h.found

theorem Distinct.start (h : s.Distinct) (roots opened : List Path) :
    (s.start roots opened).scanner.Distinct := by
  unfold Scanner.start
  split
  · exact h
  · split
    · exact h
    · refine ⟨h.published, fun scan e => ?_⟩
      rw [← Option.some.inj e]
      exact fun _ h => absurd h List.not_mem_nil

theorem Distinct.stop (h : s.Distinct) : ({ s with pending := none } : Scanner).Distinct where
  published := h.published
  found := fun _ e => by cases e

theorem Distinct.receive (hs : s.Sound) (h : s.Distinct) {r : Reply}
    (hr : s.BringsDistinct (.reply r)) : (s.receive r).scanner.Distinct := by
  unfold Scanner.receive
  split
  · exact h
  · next scan hp =>
    split
    · exact h.stop
    · next ds hd =>
      have hg : goesOn r = true := by
        rw [← s.isSome_foundBy scan.root scan.opened r, hd]
        rfl
      have hc := foundBy_eq hs (hs.pending scan hp).opened scan.root hg
      obtain rfl : ds = s.contribution scan.opened scan.root r :=
        Option.some.inj (hd.symm.trans hc)
      have hf : ∀ f ∈ (scan.root, s.contribution scan.opened scan.root r) :: scan.found,
          f.2.Nodup :=
        List.forall_mem_cons.2 ⟨h.contribution (hr scan hp), h.found scan hp⟩
      dsimp only
      split
      · refine ⟨h.published, fun scan' e => ?_⟩
        rw [← Option.some.inj e]
        exact hf
      · exact ⟨hf, fun _ e => by cases e⟩

theorem Distinct.handle (hs : s.Sound) (h : s.Distinct) {e : Event} (he : s.BringsDistinct e) :
    (s.handle e).scanner.Distinct := by
  cases e with
  | start roots opened => exact h.start roots opened
  | reply r => exact h.receive hs he
  | drop => exact h.stop
  | clearFile file => exact h.settle (.clearFile file)
  | clearAll => exact h.settle .clearAll
  | dispose => exact h.settle .dispose

/-- As long as no run reports the same diagnostic twice, none is kept twice for one root. -/
theorem Distinct.after (hs : s.Sound) (h : s.Distinct) {events : List Event}
    (he : s.ReportsDistinct events) : (s.after events).Distinct := by
  induction events generalizing s with
  | nil => exact h
  | cons e events ih => exact ih (hs.handle e) (h.handle hs he.1) he.2

/-! ### Counting -/

/-- What stands in lists without repetitions, and how often in all of them together. -/
theorem count_flatMap_of_nodup {α β : Type} [DecidableEq β] {f : α → List β}
    (h : ∀ a, (f a).Nodup) (l : List α) (b : β) :
    (l.flatMap f).count b = l.countP fun a => b ∈ f a := by
  induction l with
  | nil => rfl
  | cons a l ih =>
    rw [List.flatMap_cons, List.count_append, ih, List.countP_cons, (h a).count, Nat.add_comm]
    by_cases hb : b ∈ f a <;> simp [hb]

/-- **A diagnostic is published once for every listing of a root that is taken to have given it.**
So a completed scan publishes no diagnostic twice exactly if no two of its listings share one. -/
theorem published_once_per_listing (settings : Settings) (before : List Event)
    (roots opened : List Path) (turns : List Turn)
    (idle : (({ settings } : Scanner).after before).isScanning = false) (hne : roots ≠ [])
    (hl : turns.length = roots.length) (hg : ∀ t ∈ turns, goesOn t.reply = true)
    (distinct : ({ settings } : Scanner).ReportsDistinct
      (before ++ .start roots opened :: turns.flatMap Turn.events)) :
    let s := ({ settings } : Scanner).after before
    let given := (roots.zip (contributions (opened.map Path.normalize) s roots turns)).reverse
    ∃ files ds s', (s.trace (.start roots opened :: turns.flatMap Turn.events)).getLast? = some
        { answer := .progress (.completed files ds.length)
          notices := [.setAll ds true]
          scanner := s' } ∧
      (∀ d, ds.count d = roots.countP fun root => d ∈ latest given root) ∧
      (ds.Nodup ↔ roots.Pairwise fun p q => ∀ d ∈ latest given p, d ∉ latest given q) := by
  intro s given
  have hcs : contributions (opened.map Path.normalize) s roots turns = _ := rfl
  have hlast := getLast?_trace_start (sound_after settings before) idle hne hl hg hcs
  have hnodup : ∀ root, (latest given root).Nodup := by
    have hs := (distinct_new settings).after (sound_new settings) distinct
    rw [after_append, ← scanner_of_getLast?_trace hlast] at hs
    exact nodup_latest hs.published
  refine ⟨_, _, _, hlast, ?_, ?_⟩
  · intro d
    exact count_flatMap_of_nodup hnodup roots d
  · rw [List.nodup_flatMap]
    constructor
    · rintro ⟨-, h⟩
      exact h.imp fun hd d hp hq => hd hp hq
    · intro h
      exact ⟨fun root _ => hnodup root, h.imp fun hd d hp hq => hd d hp hq⟩

/-- A root in another one fails, and the outer one reports what the inner one falls back on. -/
theorem published_once_per_listing_of_nested :
    let roots : List Path := [⟨"/ws"⟩, ⟨"/ws/sub"⟩]
    let before : List Event :=
      [.start roots [], .reply (reportOn ["b.py"]), .reply (reportOn ["a.py"])]
    let s := ({ settings := {} } : Scanner).after before
    let events : List Event := [.start roots [], .reply (reportOn ["sub/a.py", "b.py"]),
      .reply (.error (.complaint "ruff" "ruff failed"))]
    ({ settings := {} } : Scanner).ReportsDistinct (before ++ events) ∧ s.isScanning = false ∧
      ∃ files ds s', (s.trace events).getLast? = some
          { answer := .progress (.completed files ds.length)
            notices := [.setAll ds true]
            scanner := s' } ∧
        ds.count (lineTooLong "/ws/sub/a.py") = 2 ∧ ds.count (lineTooLong "/ws/b.py") = 1 ∧
          ¬ ds.Nodup := by
  intro roots before s events
  let turns : List Turn := [.plain (reportOn ["sub/a.py", "b.py"]),
    .plain (.error (.complaint "ruff" "ruff failed"))]
  have distinct : ({ settings := {} } : Scanner).ReportsDistinct (before ++ events) := by
    decide +kernel
  have idle : s.isScanning = false := by decide +kernel
  obtain ⟨files, ds, s', hlast, hcount, hnodup⟩ := published_once_per_listing {} before roots []
    turns idle (by simp [roots]) rfl (by decide) distinct
  refine ⟨distinct, idle, files, ds, s', hlast, ?_, ?_, ?_⟩
  · rw [hcount]
    decide +kernel
  · rw [hcount]
    decide +kernel
  · rw [hnodup]
    decide +kernel

/-- A root that is listed twice publishes what it reports twice, however it is spelled, and so does
a root in another one, although no run reports anything twice. -/
theorem repeated_roots_publish_twice :
    let s : Scanner := { settings := {} }
    let d := lineTooLong "/ws/sub/a.py"
    let twice : List Event := [.start [⟨"/ws"⟩, ⟨"/ws/."⟩] [], .reply (reportOn ["sub/a.py"]),
      .reply (reportOn ["sub/a.py"])]
    let nested : List Event := [.start [⟨"/ws"⟩, ⟨"/ws/sub"⟩] [], .reply (reportOn ["sub/a.py"]),
      .reply (reportOn ["a.py"])]
    (s.ReportsDistinct twice ∧
      (s.trace twice).getLast?.map (·.notices) = some [.setAll [d, d] true]) ∧
    (s.ReportsDistinct nested ∧
      (s.trace nested).getLast?.map (·.notices) = some [.setAll [d, d] true]) := by
  decide +kernel

end LintHost.Scanner
