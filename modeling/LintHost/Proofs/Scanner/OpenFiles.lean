/-
LintHost/Proofs/Scanner/OpenFiles.lean

What a scanner that only ever scans around the same open files says about them: nothing.
It shows none of them and has found nothing in them (`Avoids`), every reply keeps it so
(`Avoids.receive`), and what a scan publishes at its end is about normal files that are
not open (`avoids_follow`).  Handing such a file over to somebody else is therefore no
event (`Avoids.clearFile`).
-/
import LintHost.Command.Run
import LintHost.Proofs.Host.Outcomes
import LintHost.Proofs.Scanner.Sound

namespace LintHost.Scanner

open Analyzer

/-- Whether some diagnostics are about normal files, and about none of the open ones. -/
def Clear (opened : List Path) (ds : List Diagnostic) : Prop :=
  ∀ d ∈ ds, d.file.IsNormal ∧ d.file ∉ opened

/-- A scanner that shows none of the open files, and scans around them. -/
structure Avoids (opened : List Path) (s : Scanner) : Prop where
  sound : s.Sound
  tracked : ∀ p ∈ s.tracked, p ∉ opened
  pending : ∀ scan, s.pending = some scan →
    scan.opened = opened ∧ ∀ f ∈ scan.found, Clear opened f.2

/-- A step that says nothing about the open files. -/
structure Step.Avoids (opened : List Path) (step : Step) : Prop where
  scanner : step.scanner.Avoids opened
  notices : step.notices = [] ∨ ∃ ds, step.notices = [.setAll ds true] ∧ Clear opened ds

variable {s : Scanner} {opened : List Path}

theorem avoids_new (settings : Settings) (opened : List Path) :
    ({ settings } : Scanner).Avoids opened where
  sound := sound_new settings
  tracked := fun _ h => absurd h List.not_mem_nil
  pending := fun _ h => by cases h

theorem not_mem_of_contains_eq_false {paths : List Path} {p : Path}
    (h : contains paths p = false) : p ∉ paths := by
  intro hp
  rw [contains, List.any_eq_false] at h
  exact h p hp (by simp [Path.same])

/-- Neither a report nor what a root falls back on brings anything about the open files. -/
theorem Avoids.foundBy (h : s.Avoids opened) {root : Path} {r : Reply} {ds : List Diagnostic}
    (hd : s.foundBy root opened r = some ds) : Clear opened ds := by
  intro d hm
  refine ⟨h.sound.foundBy hd d hm, ?_⟩
  unfold Scanner.foundBy at hd
  split at hd
  · split at hd
    · rw [← Option.some.inj hd] at hm
      obtain ⟨f, -, hf⟩ := List.mem_filterMap.1 hm
      rw [placed?, Option.bind_eq_bind, Option.bind_eq_some_iff] at hf
      obtain ⟨name, -, hf⟩ := hf
      dsimp only at hf
      split at hf
      · cases hf
      · next hopen =>
        rw [Finding.file_of_toDiagnostic? hf]
        exact not_mem_of_contains_eq_false (by simpa using hopen)
    · rw [← Option.some.inj hd] at hm
      cases hm
  · rw [← Option.some.inj hd] at hm
    cases hm
  · split at hd
    · cases hd
    · rw [← Option.some.inj hd] at hm
      have hkept := (List.mem_filter.1 hm).2
      rw [Bool.and_eq_true, Bool.not_eq_true'] at hkept
      exact not_mem_of_contains_eq_false hkept.2

theorem clear_latest {found : Findings} (h : ∀ f ∈ found, Clear opened f.2) (root : Path) :
    Clear opened (latest found root) := by
  unfold latest
  cases e : found.find? fun f => f.1.same root with
  | none => exact fun _ hd => absurd hd List.not_mem_nil
  | some f => exact h f (List.mem_of_find?_eq_some e)

theorem Avoids.with_pending (h : s.Avoids opened) {p : Option Scan}
    (hp : ∀ scan, p = some scan → scan.Sound ∧ scan.opened = opened ∧
      ∀ f ∈ scan.found, Clear opened f.2) :
    ({ s with pending := p } : Scanner).Avoids opened where
  sound := h.sound.with_pending fun scan e => (hp scan e).1
  tracked := h.tracked
  pending := fun scan e => (hp scan e).2

theorem Avoids.await (h : s.Avoids opened) {scan : Scan} (hs : scan.Sound)
    (ho : scan.opened = opened) (hf : ∀ f ∈ scan.found, Clear opened f.2) :
    (s.await scan).Avoids opened := by
  refine ⟨h.with_pending fun scan' e => ?_, .inl rfl⟩
  rw [← Option.some.inj e]
  exact ⟨hs, ho, hf⟩

theorem Avoids.start (h : s.Avoids (opened.map Path.normalize)) (roots : List Path) :
    (s.start roots opened).Avoids (opened.map Path.normalize) := by
  unfold Scanner.start
  split
  · exact ⟨h, .inl rfl⟩
  · split
    · exact ⟨h, .inl rfl⟩
    · have none : ∀ f ∈ ([] : Findings), Clear (opened.map Path.normalize) f.2 :=
        fun _ hf => absurd hf List.not_mem_nil
      exact h.await ⟨fun _ hp => isNormal_of_mem_normalize hp,
        fun _ hf => absurd hf List.not_mem_nil⟩ rfl none

theorem avoids_publish (s : Scanner) (roots : List Path) {found : Findings}
    (hf : ∀ f ∈ found, Clear opened f.2) : (s.publish roots found).Avoids opened := by
  have tidy : Tidy found := fun f hm d hd => (hf f hm d hd).1
  have clear : Clear opened (roots.flatMap (latest found)) := by
    intro d hd
    obtain ⟨root, -, hd⟩ := List.mem_flatMap.1 hd
    exact clear_latest hf root d hd
  refine ⟨⟨sound_publish s roots tidy, ?_, fun _ e => by cases e⟩, .inr ⟨_, rfl, clear⟩⟩
  intro p hp
  rw [tracked_publish s roots tidy, List.mem_dedup, List.mem_map] at hp
  obtain ⟨d, hd, rfl⟩ := hp
  exact (clear d hd).2

/-- **Every reply leaves the open files out.** -/
theorem Avoids.receive (h : s.Avoids opened) (r : Reply) : (s.receive r).Avoids opened := by
  unfold Scanner.receive
  split
  · exact ⟨h, .inl rfl⟩
  · next scan hp =>
    obtain ⟨ho, hfound⟩ := h.pending scan hp
    have hscan := h.sound.pending scan hp
    split
    · exact ⟨h.with_pending (fun _ e => by cases e), .inl rfl⟩
    · next ds hd =>
      rw [ho] at hd
      have hf : ∀ f ∈ (scan.root, ds) :: scan.found, Clear opened f.2 :=
        List.forall_mem_cons.2 ⟨h.foundBy hd, hfound⟩
      dsimp only
      split
      · exact h.await ⟨hscan.opened, fun f hm d hd => (hf f hm d hd).1⟩ ho hf
      · exact avoids_publish s scan.roots hf

/-- A scan that is carried through says nothing about the open files, whatever the analyzer
replies. -/
theorem avoids_follow {fuel : Nat} {step ended : Step} (h : step.Avoids opened)
    (hf : (Command.follow fuel step).ComesTo ended) : ended.Avoids opened := by
  induction fuel generalizing step with
  | zero =>
    obtain rfl : ended = step := hf
    exact h
  | succ fuel ih =>
    unfold Command.follow at hf
    split at hf
    · obtain ⟨reply, hf⟩ := hf
      exact ih (h.scanner.receive reply) hf
    · obtain rfl : ended = step := hf
      exact h

/-- Nothing happens when an open file is handed over. -/
theorem Avoids.clearFile (h : s.Avoids opened) {file : Path} (hfile : file.normalize ∈ opened) :
    s.clearFile file = (false, [], s) := by
  have hc : contains s.tracked file.normalize = false := by
    rw [← Bool.not_eq_true, contains_iff_mem h.sound.tracked file.isNormal_normalize]
    exact fun hm => h.tracked _ hm hfile
  simp [Scanner.clearFile, hc]

end LintHost.Scanner
