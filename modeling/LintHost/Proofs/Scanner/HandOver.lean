/-
LintHost/Proofs/Scanner/HandOver.lean

What becomes of a file that is handed over while a scan waits.  From then on no root
that fails falls back on it (`Withheld`).  But what the scan has found by then stays
found, and what the replies to come report is only checked against the files that
were open when the scan began.

Main result: when the scan completes, what is shown for such a file is exactly what
the scan had found and what the replies to come report (`shown_after_hand_over`), so
that the file is gone for good if and only if these say nothing about it.  A run in
which it comes back is `handed_over_file_is_shown_again`.
-/
import LintHost.Proofs.Scanner.Contribution
import Mathlib.Data.List.Flatten

namespace LintHost.Scanner

open Analyzer

variable {s : Scanner} {q : Diagnostic → Bool}

/-! ### What is taken down stays down -/

/-- Whether nothing that the last completed scan found and of which `q` holds is still shown. -/
def Withheld (s : Scanner) (q : Diagnostic → Bool) : Prop :=
  ∀ root, ∀ d ∈ latest s.published root, d.file ∈ s.tracked → q d = false

/-- What an event leaves of the last completed scan was there before. -/
theorem mem_latest_of_mem_settle {e : Event} {root : Path} {d : Diagnostic}
    (h : d ∈ latest (s.settle e).published root) : d ∈ latest s.published root := by
  rw [published_settle] at h
  split at h
  · cases h
  · exact h

theorem Withheld.settle (h : s.Withheld q) (e : Event) : (s.settle e).Withheld q := by
  intro root d hd ht
  rw [tracked_settle] at ht
  exact h root d (mem_latest_of_mem_settle hd) (List.mem_filter.1 ht).1

theorem Withheld.foldl_settle (h : s.Withheld q) (events : List Event) :
    (events.foldl Scanner.settle s).Withheld q := by
  induction events generalizing s with
  | nil => exact h
  | cons e events ih => exact ih (h.settle e)

/-- What an event has taken down is not shown. -/
theorem withheld_settle_takesDown (s : Scanner) (e : Event) :
    (s.settle e).Withheld fun d => e.takesDown d.file := by
  intro root d hd ht
  rw [tracked_settle] at ht
  simpa using (List.mem_filter.1 ht).2

/-! ### What a scan goes on with -/

/-- What the replies to come report about the roots that are left. -/
def awaited (s : Scanner) (scan : Scan) (turns : List Turn) : Findings :=
  (((scan.root :: scan.left).zip turns).map fun a =>
    (a.1, reported s.settings.policy scan.opened a.1 a.2.reply)).reverse

/-- What a scan goes on with whatever is handed over: what it has found, and what the replies to
come report. -/
def standing (s : Scanner) (scan : Scan) (turns : List Turn) : Findings :=
  s.awaited scan turns ++ scan.found

/-- What has been found and satisfies `q`. -/
def only (q : Diagnostic → Bool) (found : Findings) : Findings :=
  found.map fun f => (f.1, f.2.filter q)

theorem latest_only (q : Diagnostic → Bool) (found : Findings) (root : Path) :
    latest (only q found) root = (latest found root).filter q := by
  have hc : ((fun f : Path × List Diagnostic => f.1.same root) ∘
      fun f : Path × List Diagnostic => (f.1, f.2.filter q)) = fun f => f.1.same root := rfl
  unfold latest only
  rw [List.find?_map, hc]
  cases found.find? fun f => f.1.same root <;> rfl

theorem flatMap_latest_only (q : Diagnostic → Bool) (found : Findings) (roots : List Path) :
    roots.flatMap (latest (only q found)) = (roots.flatMap (latest found)).filter q := by
  rw [List.filter_flatMap]
  exact congrArg (roots.flatMap ·) (funext fun root => latest_only q found root)

theorem reported_of_hasFailed {r : Reply} (h : hasFailed r = true) (policy : Policy)
    (opened : List Path) (root : Path) : reported policy opened root r = [] := by
  cases r with
  | ok output => cases h
  | error failure => rfl

/-- What is withheld is in a contribution only if the reply itself reports it. -/
theorem Withheld.filter_contribution (h : s.Withheld q) (opened : List Path) (root : Path)
    (r : Reply) : (s.contribution opened root r).filter q
      = (reported s.settings.policy opened root r).filter q := by
  unfold contribution
  by_cases hf : hasFailed r = true
  · -- a root that has failed falls back on tracked files only, and `q` holds of none of them
    have hk : (s.kept opened root).filter q = [] := by
      rw [List.filter_eq_nil_iff]
      intro d hd
      obtain ⟨hd, hs⟩ := List.mem_filter.1 hd
      rw [h root d hd (of_decide_eq_true hs).1]
      exact Bool.false_ne_true
    rw [if_pos hf, hk, reported_of_hasFailed hf]
    rfl
  · rw [if_neg hf]

theorem Withheld.only_contributions (h : s.Withheld q) (opened roots : List Path)
    (turns : List Turn) : only q (roots.zip (contributions opened s roots turns))
      = only q ((roots.zip turns).map fun a =>
          (a.1, reported s.settings.policy opened a.1 a.2.reply)) := by
  induction roots generalizing s turns with
  | nil => rfl
  | cons root roots ih =>
    cases turns with
    | nil => rfl
    | cons t turns =>
      have hc := h.foldl_settle t.meanwhile
      have hp := settings_foldl_settle s t.meanwhile
      have hhead := hc.filter_contribution opened root t.reply
      have htail := ih hc turns
      rw [hp] at hhead htail
      show (root, _) :: only q (roots.zip _) = (root, _) :: only q _
      rw [hhead, htail]
      rfl

/-- Of what is withheld, all turns of a scan bring about what the scan goes on with. -/
theorem Withheld.filter_gathered (h : s.Withheld q) (scan : Scan) (turns : List Turn) :
    (scan.roots.flatMap (latest (s.gathered scan turns))).filter q
      = (scan.roots.flatMap (latest (s.standing scan turns))).filter q := by
  have ho : only q (s.gathered scan turns) = only q (s.standing scan turns) := by
    unfold gathered standing awaited
    simp only [only, List.map_append, List.map_reverse]
    exact congrArg (·.reverse ++ _) (h.only_contributions scan.opened _ turns)
  rw [← flatMap_latest_only, ← flatMap_latest_only, ho]

/-- Lists made of parts are the same as lists made of less only if no part is less. -/
theorem flatMap_eq_flatMap_iff {α β : Type} {f g : α → List β} {l : List α}
    (h : ∀ a ∈ l, (g a).Sublist (f a)) :
    l.flatMap f = l.flatMap g ↔ ∀ a ∈ l, f a = g a := by
  refine ⟨?_, List.flatMap_congr⟩
  induction l with
  | nil => exact fun _ _ ha => absurd ha List.not_mem_nil
  | cons a l ih =>
    intro he
    have hl : ∀ b ∈ l, (g b).Sublist (f b) := fun b hb => h b (List.mem_cons_of_mem _ hb)
    have ha := (h a List.mem_cons_self).length_le
    have hr := (List.Sublist.flatMap_right l hl).length_le
    rw [List.flatMap_cons, List.flatMap_cons] at he
    have hn := congrArg List.length he
    rw [List.length_append, List.length_append] at hn
    -- neither the first part nor the rest is longer on the right, so neither is shorter
    obtain ⟨hfg, hrest⟩ := List.append_inj he (by omega)
    intro b hb
    rcases List.mem_cons.1 hb with rfl | hb
    · exact hfg
    · exact ih hl hrest b hb

/-- What has been found before adds to what has been found later only below other roots. -/
theorem latest_append_eq_iff (newer older : Findings) (root : Path) :
    latest (newer ++ older) root = latest newer root ↔
      ((∀ f ∈ newer, f.1.same root = false) → latest older root = []) := by
  rw [latest_append]
  cases e : newer.find? fun f => f.1.same root with
  | none =>
    have ha : ∀ f ∈ newer, f.1.same root = false := fun f hf =>
      Bool.eq_false_iff.2 (List.find?_eq_none.1 e f hf)
    rw [latest_of_apart ha]
    exact ⟨fun h _ => h, fun h => h ha⟩
  | some f =>
    refine ⟨fun _ ha => ?_, fun _ => by simp [latest, e]⟩
    have hs := List.find?_some e
    rw [ha f (List.mem_of_find?_eq_some e)] at hs
    cases hs

theorem latest_sublist_append (newer older : Findings) (root : Path) :
    (latest newer root).Sublist (latest (newer ++ older) root) := by
  rw [latest_append, latest]
  cases newer.find? fun f => f.1.same root with
  | none => exact List.nil_sublist _
  | some f => exact List.Sublist.refl _

/-- What a scan goes on with is what is still to come, if and only if it had found nothing below
the roots that have had their turn. -/
theorem flatMap_latest_standing_iff (s : Scanner) (scan : Scan) {turns : List Turn}
    (hl : turns.length = scan.left.length + 1) :
    scan.roots.flatMap (latest (s.standing scan turns))
        = scan.roots.flatMap (latest (s.awaited scan turns))
      ↔ ∀ root ∈ scan.roots, (∀ r ∈ scan.root :: scan.left, r.same root = false) →
        latest scan.found root = [] := by
  have hroots : (s.awaited scan turns).map (·.1) = (scan.root :: scan.left).reverse := by
    unfold awaited
    rw [List.map_reverse, List.map_map]
    exact congrArg List.reverse (List.map_fst_zip (Nat.le_of_eq hl.symm))
  have hapart : ∀ root, (∀ r ∈ scan.root :: scan.left, r.same root = false) ↔
      ∀ f ∈ s.awaited scan turns, f.1.same root = false := by
    intro root
    have hm : ∀ r, r ∈ scan.root :: scan.left ↔ r ∈ (s.awaited scan turns).map (·.1) := by
      intro r
      rw [hroots, List.mem_reverse]
    simp only [hm]
    exact List.forall_mem_map
  unfold standing
  rw [flatMap_eq_flatMap_iff fun root _ => latest_sublist_append _ scan.found root]
  refine forall₂_congr fun root _ => ?_
  rw [hapart root]
  exact latest_append_eq_iff _ _ root

/-! ### Handing over while a scan waits -/

theorem takesDown_of_forgets {e : Event} (h : e.forgets = true) (p : Path) :
    e.takesDown p = true := by
  rcases eq_of_forgets h with rfl | rfl
  · rfl
  · rfl

/-- What is on the list about a file that an event takes down is what the scan goes on with. -/
theorem filter_file_eq {e : Event} {p : Path} (h : e.takesDown p = true)
    {ds standing : List Diagnostic}
    (hq : ds.filter (fun d => e.takesDown d.file) = standing.filter fun d => e.takesDown d.file) :
    ds.filter (·.file = p) = standing.filter (·.file = p) := by
  have hone : ∀ l : List Diagnostic,
      l.filter (·.file = p) = (l.filter fun d => e.takesDown d.file).filter (·.file = p) := by
    intro l
    rw [List.filter_filter]
    refine List.filter_congr fun d _ => ?_
    by_cases hd : d.file = p <;> simp [hd, h]
  rw [hone ds, hq, ← hone standing]

theorem not_mem_files_iff {p : Path} {ds : List Diagnostic} :
    p ∉ ds.map (·.file) ↔ ds.filter (·.file = p) = [] := by
  simp [List.filter_eq_nil_iff]

/-- **What is shown for a file that has been handed over to others while a scan waits** is, once
the scan completes, what the scan had found by then and what the replies to come report; none of it
is what a root that fails falls back on.  So the file is gone for good if and only if these say
nothing about it, and nothing that was found before everything was taken down is shown if and only
if the scan had found nothing by then. -/
theorem shown_after_hand_over (settings : Settings) (before : List Event) (scan : Scan)
    (hp : (({ settings } : Scanner).after before).pending = some scan) (turns : List Turn)
    (hl : turns.length = scan.left.length + 1) (hg : ∀ t ∈ turns, goesOn t.reply = true)
    (e : Event) (ha : e.isAside = true) :
    let s := ({ settings } : Scanner).after before
    let standing := s.standing scan turns
    ∃ ds s', ((s.handle e).scanner.trace (turns.flatMap Turn.events)).getLast? = some
        { answer := .progress (.completed (ds.map (·.file)).dedup.length ds.length)
          notices := [.setAll ds true]
          scanner := s' } ∧
      (∀ p, p ∈ s'.trackedFiles ↔ p ∈ ds.map (·.file)) ∧
      (∀ p, e.takesDown p = true →
        ds.filter (·.file = p)
          = (scan.roots.flatMap (latest standing)).filter (·.file = p) ∧
        (p ∉ ds.map (·.file) ∧ p ∉ s'.trackedFiles ↔
          ∀ root ∈ scan.roots, p ∉ (latest standing root).map (·.file))) ∧
      (e.forgets = true →
        ds = scan.roots.flatMap (latest standing) ∧
        (ds = scan.roots.flatMap (latest (s.awaited scan turns)) ↔
          ∀ root ∈ scan.roots, (∀ r ∈ scan.root :: scan.left, r.same root = false) →
            latest scan.found root = [])) := by
  intro s standing
  have hs : s.Sound := sound_after settings before
  have hc : (s.handle e).scanner = s.settle e :=
    scanner_handle_aside (by simp [isScanning, s, hp]) ha
  have hcp : (s.settle e).pending = some scan := by rw [pending_settle, hp]
  have hst : (s.settle e).standing scan turns = standing := by
    simp only [standing, Scanner.standing, awaited, settings_settle]
  have hlast := getLast?_trace_turns (hs.settle e) scan hcp hl hg
  rw [publish_eq _ _ (tidy_gathered (hs.settle e) scan hcp hl hg)] at hlast
  -- from `e` on, the list agrees with what the scan goes on with on all that `e` takes down
  have hq := (withheld_settle_takesDown s e).filter_gathered scan turns
  rw [hst] at hq
  generalize he : scan.roots.flatMap (latest ((s.settle e).gathered scan turns)) = ds
    at hlast hq
  have htr : ∀ p, p ∈ trackedFiles { (turns.flatMap Turn.meanwhile).foldl settle (s.settle e) with
      tracked := (ds.map (·.file)).dedup,
      published := (s.settle e).gathered scan turns, pending := none } ↔ p ∈ ds.map (·.file) := by
    intro p
    exact mem_trackedFiles.trans List.mem_dedup
  rw [hc]
  refine ⟨ds, _, hlast, htr, ?_, ?_⟩
  · intro p ht
    have hf := filter_file_eq ht hq
    refine ⟨hf, ?_⟩
    rw [htr p, and_self, not_mem_files_iff, hf, List.filter_flatMap, List.flatMap_eq_nil_iff]
    exact forall₂_congr fun root _ => not_mem_files_iff.symm
  · intro hfo
    have hall : ∀ d : Diagnostic, e.takesDown d.file = true := fun d => takesDown_of_forgets hfo _
    rw [List.filter_eq_self.2 fun d _ => hall d, List.filter_eq_self.2 fun d _ => hall d] at hq
    refine ⟨hq, ?_⟩
    rw [hq]
    exact flatMap_latest_standing_iff s scan hl

/-- The scan has found something for the file by the time the file is handed over. -/
theorem shown_after_hand_over_of_found :
    let s := ({ settings := {} } : Scanner).after
      [.start [⟨"/ws1"⟩, ⟨"/ws2"⟩] [], .reply (reportOn ["a.py"])]
    ∃ ds s', ((s.handle (.clearFile ⟨"/ws1/./a.py"⟩)).scanner.trace
        [.reply (reportOn ["b.py"])]).getLast? = some
        { answer := .progress (.completed (ds.map (·.file)).dedup.length ds.length)
          notices := [.setAll ds true]
          scanner := s' } ∧
      ds.filter (·.file = ⟨"/ws1/a.py"⟩) = [lineTooLong "/ws1/a.py"] ∧
      ¬ (⟨"/ws1/a.py"⟩ ∉ ds.map (·.file) ∧ ⟨"/ws1/a.py"⟩ ∉ s'.trackedFiles) := by
  intro s
  let scan : Scan :=
    ⟨[⟨"/ws1"⟩, ⟨"/ws2"⟩], ⟨"/ws2"⟩, [], [], [(⟨"/ws1"⟩, [lineTooLong "/ws1/a.py"])]⟩
  have hp : s.pending = some scan := by decide +kernel
  have hst : scan.roots.flatMap (latest (s.standing scan [.plain (reportOn ["b.py"])]))
      = [lineTooLong "/ws1/a.py", lineTooLong "/ws2/b.py"] := by decide +kernel
  obtain ⟨ds, s', hlast, -, hfile, -⟩ := shown_after_hand_over {}
    [.start [⟨"/ws1"⟩, ⟨"/ws2"⟩] [], .reply (reportOn ["a.py"])] scan hp
    [.plain (reportOn ["b.py"])] rfl (by decide) (.clearFile ⟨"/ws1/./a.py"⟩) rfl
  obtain ⟨hds, hgone⟩ := hfile ⟨"/ws1/a.py"⟩ (by decide)
  refine ⟨ds, s', hlast, ?_, ?_⟩
  · rw [hds, hst]
    decide
  · rw [hgone]
    decide +kernel

/-- A file that is handed over, or taken down with all others, while the second scan waits for its
last reply is shown again once the reply is there: its root has failed before that, and has fallen
back on what it gave to the first scan. -/
theorem handed_over_file_is_shown_again :
    let events : List Event := [.start [⟨"/ws1"⟩, ⟨"/ws2"⟩] [], .reply (reportOn ["a.py"]),
      .reply (reportOn ["b.py"]), .start [⟨"/ws1"⟩, ⟨"/ws2"⟩] [],
      .reply (.error (.complaint "ruff" "ruff failed"))]
    let s := ({ settings := {} } : Scanner).after events
    let shown : List Notice := [.setAll [lineTooLong "/ws1/a.py", lineTooLong "/ws2/b.py"] true]
    s.isScanning = true ∧
    (s.trace [.clearFile ⟨"/ws1/a.py"⟩, .reply (reportOn ["b.py"])]).map (·.notices)
      = [[.set ⟨"/ws1/a.py"⟩ []], shown] ∧
    ⟨"/ws1/a.py"⟩ ∈
      (s.after [.clearFile ⟨"/ws1/a.py"⟩, .reply (reportOn ["b.py"])]).trackedFiles ∧
    (s.trace [.clearAll, .reply (reportOn ["b.py"])]).map (·.notices) = [[.clear], shown] ∧
    ⟨"/ws1/a.py"⟩ ∈ (s.after [.clearAll, .reply (reportOn ["b.py"])]).trackedFiles := by
  intro events s shown
  refine ⟨by decide +kernel, by decide +kernel, ?_, by decide +kernel, ?_⟩
  · exact mem_trackedFiles.2 (by decide +kernel)
  · exact mem_trackedFiles.2 (by decide +kernel)

end LintHost.Scanner
