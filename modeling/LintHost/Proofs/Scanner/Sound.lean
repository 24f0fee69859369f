/-
LintHost/Proofs/Scanner/Sound.lean

A scanner only ever deals in normal forms: the files that it shows, those that are
open while it scans, and those of every diagnostic that it keeps or has found.  This
is what `Sound` says, and every event preserves it (`Sound.handle`), so that it holds
after any events (`sound_after`).  Among normal forms the look-up by components is
membership (`contains_iff_mem`), and what is left of a list of files without
repetitions is what is left of it as a list of values (`distinct_eq_dedup`).
-/
import LintHost.Proofs.Path.Canonical
import LintHost.Proofs.Scanner.Events
import Mathlib.Data.List.Dedup

namespace LintHost

open Analyzer

namespace Scanner

/-! ### Look-up among normal forms -/

theorem contains_iff_mem {paths : List Path} {p : Path} (hs : ∀ q ∈ paths, q.IsNormal)
    (hp : p.IsNormal) : contains paths p = true ↔ p ∈ paths := by
  rw [contains, List.any_eq_true]
  constructor
  · rintro ⟨q, hq, hqp⟩
    rw [← ((hs q hq).same_iff_eq hp).1 hqp]
    exact hq
  · intro h
    exact ⟨p, h, (hp.same_iff_eq hp).2 rfl⟩

/-- Normal forms differ as files exactly when they differ as values. -/
theorem distinct_eq_dedup {paths : List Path} (hs : ∀ p ∈ paths, p.IsNormal) :
    distinct paths = paths.dedup := by
  induction paths with
  | nil => rfl
  | cons p rest ih =>
    have hr : ∀ q ∈ rest, q.IsNormal := fun q hq => hs q (List.mem_cons_of_mem _ hq)
    have hp : contains rest p = true ↔ p ∈ rest := contains_iff_mem hr (hs p List.mem_cons_self)
    by_cases h : p ∈ rest
    · rw [distinct, if_pos (hp.2 h), ih hr, List.dedup_cons_of_mem h]
    · rw [distinct, if_neg fun hc => h (hp.1 hc), ih hr, List.dedup_cons_of_notMem h]

/-! ### Findings -/

/-- Whether all that has been found is about normal files. -/
def Tidy (found : Findings) : Prop :=
  ∀ f ∈ found, ∀ d ∈ f.2, d.file.IsNormal

theorem Tidy.latest {found : Findings} (h : Tidy found) (root : Path) :
    ∀ d ∈ latest found root, d.file.IsNormal := by
  intro d hd
  rcases e : found.find? fun f => f.1.same root with - | f
  · simp [Scanner.latest, e] at hd
  · have hm : d ∈ f.2 := by simpa [Scanner.latest, e] using hd
    exact h f (List.mem_of_find?_eq_some e) d hm

theorem Tidy.cons {found : Findings} (h : Tidy found) {root : Path} {ds : List Diagnostic}
    (hd : ∀ d ∈ ds, d.file.IsNormal) : Tidy ((root, ds) :: found) := by
  intro f hf
  rcases List.mem_cons.1 hf with rfl | hf
  · exact hd
  · exact h f hf

/-- A diagnostic that a finding below a root becomes is about a normal file. -/
theorem isNormal_of_placed {policy : Policy} {root : Path} {opened : List Path} {f : Finding}
    {d : Diagnostic} (h : placed? policy root opened f = some d) : d.file.IsNormal := by
  rw [placed?, Option.bind_eq_bind, Option.bind_eq_some_iff] at h
  obtain ⟨name, -, h⟩ := h
  dsimp only at h
  split at h
  · cases h
  · rw [Finding.file_of_toDiagnostic? h]
    exact Path.isNormal_normalize _

end Scanner

/-- A scan that deals in normal forms. -/
structure Scan.Sound (scan : Scan) : Prop where
  opened : ∀ p ∈ scan.opened, p.IsNormal
  found : Scanner.Tidy scan.found

namespace Scanner

/-- A scanner that deals in normal forms and shows no file twice. -/
structure Sound (s : Scanner) : Prop where
  tracked : ∀ p ∈ s.tracked, p.IsNormal
  nodup : s.tracked.Nodup
  published : Tidy s.published
  pending : ∀ scan, s.pending = some scan → scan.Sound

variable {s : Scanner}

theorem mem_trackedFiles {p : Path} : p ∈ s.trackedFiles ↔ p ∈ s.tracked :=
  List.mem_mergeSort

theorem sound_new (settings : Settings) : ({ settings } : Scanner).Sound where
  tracked := fun _ h => absurd h List.not_mem_nil
  nodup := List.nodup_nil
  published := fun _ h => absurd h List.not_mem_nil
  pending := fun _ h => by cases h

theorem isNormal_of_mem_normalize {paths : List Path} {p : Path}
    (h : p ∈ paths.map Path.normalize) : p.IsNormal := by
  obtain ⟨q, -, rfl⟩ := List.mem_map.1 h
  exact q.isNormal_normalize

/-- Whatever comes in for a root is about normal files. -/
theorem Sound.foundBy (hs : s.Sound) {root : Path} {opened : List Path} {r : Reply}
    {ds : List Diagnostic} (h : s.foundBy root opened r = some ds) :
    ∀ d ∈ ds, d.file.IsNormal := by
  unfold Scanner.foundBy at h
  intro d hd
  split at h
  · split at h
    · rw [← Option.some.inj h] at hd
      obtain ⟨f, -, hf⟩ := List.mem_filterMap.1 hd
      exact isNormal_of_placed hf
    · rw [← Option.some.inj h] at hd
      cases hd
  · rw [← Option.some.inj h] at hd
    cases hd
  · split at h
    · cases h
    · rw [← Option.some.inj h] at hd
      exact hs.published.latest root d (List.mem_filter.1 hd).1

theorem Sound.with_pending (hs : s.Sound) {p : Option Scan}
    (hp : ∀ scan, p = some scan → scan.Sound) : ({ s with pending := p } : Scanner).Sound where
  tracked := hs.tracked
  nodup := hs.nodup
  published := hs.published
  pending := hp

theorem Sound.await (hs : s.Sound) {scan : Scan} (h : scan.Sound) :
    (s.await scan).scanner.Sound := by
  refine hs.with_pending ?_
  intro scan' e
  rw [← Option.some.inj e]
  exact h

theorem Sound.stop (hs : s.Sound) : ({ s with pending := none } : Scanner).Sound :=
  hs.with_pending fun _ e => by cases e

theorem Sound.start (hs : s.Sound) (roots opened : List Path) :
    (s.start roots opened).scanner.Sound := by
  unfold Scanner.start
  split
  · exact hs
  · split
    · exact hs
    · exact hs.await ⟨fun _ h => isNormal_of_mem_normalize h, fun _ h => absurd h List.not_mem_nil⟩

/-- What is published is about normal files. -/
theorem isNormal_of_mem_published {roots : List Path} {found : Findings} (h : Tidy found) :
    ∀ d ∈ roots.flatMap (latest found), d.file.IsNormal := by
  intro d hd
  obtain ⟨root, -, hd⟩ := List.mem_flatMap.1 hd
  exact h.latest root d hd

/-- What publishing comes to: the scanner tracks the files of the list, each once. -/
theorem publish_eq (s : Scanner) (roots : List Path) {found : Findings} (h : Tidy found) :
    s.publish roots found =
      let ds := roots.flatMap (latest found)
      let files := (ds.map (·.file)).dedup
      { progress := .completed files.length ds.length
        notices := [.setAll ds true]
        scanner := { s with tracked := files, published := found, pending := none } } := by
  have hd : distinct ((roots.flatMap (latest found)).map (·.file))
      = ((roots.flatMap (latest found)).map (·.file)).dedup := by
    refine distinct_eq_dedup ?_
    intro p hp
    obtain ⟨d, hd, rfl⟩ := List.mem_map.1 hp
    exact isNormal_of_mem_published h d hd
  simp only [publish, hd]

/-- The files of a published list, each once. -/
theorem tracked_publish (s : Scanner) (roots : List Path) {found : Findings} (h : Tidy found) :
    (s.publish roots found).scanner.tracked
      = ((roots.flatMap (latest found)).map (·.file)).dedup := by
  rw [publish_eq s roots h]

theorem sound_publish (s : Scanner) (roots : List Path) {found : Findings} (h : Tidy found) :
    (s.publish roots found).scanner.Sound where
  tracked := by
    intro p hp
    rw [tracked_publish s roots h, List.mem_dedup, List.mem_map] at hp
    obtain ⟨d, hd, rfl⟩ := hp
    exact isNormal_of_mem_published h d hd
  nodup := by
    rw [tracked_publish s roots h]
    exact List.nodup_dedup _
  published := h
  pending := fun _ e => by cases e

theorem Sound.receive (hs : s.Sound) (r : Reply) : (s.receive r).scanner.Sound := by
  unfold Scanner.receive
  split
  · exact hs
  · next scan hp =>
    have hscan := hs.pending scan hp
    split
    · exact hs.stop
    · next ds hd =>
      have hf : Tidy ((scan.root, ds) :: scan.found) := hscan.found.cons (hs.foundBy hd)
      dsimp only
      split
      · exact hs.await ⟨hscan.opened, hf⟩
      · exact sound_publish s scan.roots hf

theorem Sound.settle (hs : s.Sound) (e : Event) : (s.settle e).Sound where
  tracked := by
    intro p hp
    rw [tracked_settle] at hp
    exact hs.tracked p (List.mem_filter.1 hp).1
  nodup := by
    rw [tracked_settle]
    exact hs.nodup.filter _
  published := by
    rw [published_settle]
    split
    · exact fun _ h => absurd h List.not_mem_nil
    · exact hs.published
  pending := by
    rw [pending_settle]
    exact hs.pending

/-- Every event leaves a scanner dealing in normal forms. -/
theorem Sound.handle (hs : s.Sound) (e : Event) : (s.handle e).scanner.Sound := by
  cases e with
  | start roots opened => exact hs.start roots opened
  | reply r => exact hs.receive r
  | drop => exact hs.stop
  | clearFile file => exact hs.settle (.clearFile file)
  | clearAll => exact hs.settle .clearAll
  | dispose => exact hs.settle .dispose

theorem Sound.after (hs : s.Sound) (events : List Event) : (s.after events).Sound := by
  induction events generalizing s with
  | nil => exact hs
  | cons e events ih => exact ih (hs.handle e)

theorem Sound.foldl_settle (hs : s.Sound) (events : List Event) :
    (events.foldl Scanner.settle s).Sound := by
  induction events generalizing s with
  | nil => exact hs
  | cons e events ih => exact ih (hs.settle e)

/-- A scanner deals in normal forms after any events. -/
theorem sound_after (settings : Settings) (events : List Event) :
    (({ settings } : Scanner).after events).Sound :=
  (sound_new settings).after events

end Scanner

end LintHost
