/-
LintHost/Proofs/Scanner/Rescan.lean

Scanning the same roots over and over.  A first scan has the output of each root;
then, in every further scan, each root either gives this output again or fails, in
whichever way does not end the scan.  In between, files are handed over, but only
ones that are open from then on, and no file that is open is ever closed.

What carries all of these scans is one invariant (`Retains`): the scanner keeps, for
each root, what the root gave to the first scan, but for the files that are open, and
tracks all of these files that are not about to be open.  A root that fails then falls
back on just what it would have reported (`Retains.kept_eq`).

Main result: every further scan publishes what the first one has published, but for
the files that are open (`rescans_publish_first`).
-/
import LintHost.Proofs.Scanner.Completion
import Mathlib.Data.List.Forall2

namespace LintHost.Scanner

open Analyzer

/-! ### Scans with nothing in between -/

theorem flatMap_events_plain (replies : List Reply) :
    (replies.map Turn.plain).flatMap Turn.events = replies.map .reply := by
  induction replies with
  | nil => rfl
  | cons r replies ih =>
    rw [List.map_cons, List.flatMap_cons, ih]
    rfl

/-- Handing over files leaves all but them tracked. -/
theorem after_clearFiles (s : Scanner) (files : List Path) :
    s.after (files.map .clearFile) = { s with
      tracked := s.tracked.filter fun p => files.all fun q => !p.same q.normalize } := by
  induction files generalizing s with
  | nil =>
    show s = { s with tracked := s.tracked.filter fun _ => true }
    rw [List.filter_eq_self.2 fun _ _ => rfl]
  | cons file files ih =>
    show (s.clearFile file).2.2.after (files.map .clearFile) = _
    rw [scanner_clearFile, ih, List.filter_filter]
    simp only [List.all_cons, Bool.and_comm]

/-! ### What is left when more files are open -/

/-- What is left of diagnostics when some files are open. -/
def without (opened : List Path) (ds : List Diagnostic) : List Diagnostic :=
  ds.filter (·.file ∉ opened)

theorem mem_without {opened : List Path} {ds : List Diagnostic} {d : Diagnostic} :
    d ∈ without opened ds ↔ d ∈ ds ∧ d.file ∉ opened := by
  rw [without, List.mem_filter, decide_eq_true_eq]

theorem flatten_map_without (opened : List Path) (cs : List (List Diagnostic)) :
    (cs.map (without opened)).flatten = without opened cs.flatten :=
  List.filter_flatten.symm

/-- What was left out before is left out again. -/
theorem without_without {first second : List Path} (h : first ⊆ second) (ds : List Diagnostic) :
    without second (without first ds) = without second ds := by
  rw [without, without, List.filter_filter]
  refine List.filter_congr fun d _ => ?_
  rw [Bool.and_eq_left_iff_imp, decide_eq_true_eq, decide_eq_true_eq]
  exact fun hd hm => hd (h hm)

/-- When more files are open, a reply reports the same but for these files. -/
theorem reported_of_subset {first second : List Path} (h : first ⊆ second) (policy : Policy)
    (root : Path) (r : Reply) :
    reported policy second root r = without second (reported policy first root r) := by
  cases r with
  | error failure => rfl
  | ok output =>
    unfold reported
    dsimp only
    rcases Report.decode output.toList with fault | found
    · rfl
    · dsimp only
      rw [without, List.filter_filterMap]
      refine List.filterMap_congr fun f _ => ?_
      rcases f.filename with - | name
      · rfl
      · show (if (root.join ⟨name⟩).normalize ∈ second then none
              else f.toDiagnostic? policy (root.join ⟨name⟩).normalize 0)
            = Option.filter _ (if (root.join ⟨name⟩).normalize ∈ first then none
              else f.toDiagnostic? policy (root.join ⟨name⟩).normalize 0)
        generalize (root.join ⟨name⟩).normalize = file
        by_cases hf : file ∈ first
        · rw [if_pos hf, if_pos (h hf)]
          rfl
        · rw [if_neg hf]
          rcases e : f.toDiagnostic? policy file 0 with - | d
          · exact ite_self none
          · have hd : d.file = file := Finding.file_of_toDiagnostic? e
            by_cases hs : file ∈ second <;> simp [Option.filter, hs, hd]

/-- What a reply reports is about no file that is open. -/
theorem reported_eq_without (policy : Policy) (opened : List Path) (root : Path) (r : Reply) :
    reported policy opened root r = without opened (reported policy opened root r) :=
  reported_of_subset (List.Subset.refl opened) policy root r

/-! ### Rescans -/

/-- What roots give by their outputs. -/
def given (policy : Policy) (opened roots : List Path) (outputs : List String) :
    List (List Diagnostic) :=
  List.zipWith (fun root output => reported policy opened root (.ok output)) roots outputs

/-- Whether a reply is this output again, or tells of a failure that does not end the scan. -/
def Repeats (output : String) (r : Reply) : Prop :=
  r = .ok output ∨ hasFailed r = true ∧ goesOn r = true

/-- A scan of roots that have been scanned before, and the files handed over before it. -/
structure Rescan where
  handed : List Path
  opened : List Path
  replies : List Reply

def Rescan.events (roots : List Path) (r : Rescan) : List Event :=
  r.handed.map .clearFile ++ .start roots r.opened :: r.replies.map .reply

/-- A rescan that brings nothing new: its replies repeat the outputs, no file is closed, and what
is handed over is open from then on. -/
structure Rescan.Follows (outputs : List String) (opened : List Path) (r : Rescan) : Prop where
  replies : List.Forall₂ Repeats outputs r.replies
  opened : opened ⊆ r.opened.map Path.normalize
  handed : r.handed.map Path.normalize ⊆ r.opened.map Path.normalize

/-- Rescans each of which follows the one before it. -/
def Follow (outputs : List String) : List Path → List Rescan → Prop
  | _, [] => True
  | opened, r :: rescans =>
    r.Follows outputs opened ∧ Follow outputs (r.opened.map Path.normalize) rescans

/-- Once a file is open, it stays open. -/
theorem follow_subset {outputs : List String} {opened : List Path} {rescans : List Rescan}
    (h : Follow outputs opened rescans) {k : Nat} {r : Rescan} (hk : rescans[k]? = some r) :
    opened ⊆ r.opened.map Path.normalize := by
  induction k generalizing opened rescans with
  | zero =>
    cases rescans with
    | nil => cases hk
    | cons r' rescans =>
      obtain rfl : r' = r := Option.some.inj hk
      exact h.1.opened
  | succ k ih =>
    cases rescans with
    | nil => cases hk
    | cons r' rescans => exact List.Subset.trans h.1.opened (ih h.2 hk)

/-- Whether a scanner keeps, and shows, what is left of what roots gave to it while some files were
open.  What it does not show any more of it is about files in `opening`. -/
structure Retains (s : Scanner) (policy : Policy) (roots : List Path) (cs : List (List Diagnostic))
    (opened opening : List Path) : Prop where
  sound : s.Sound
  idle : s.isScanning = false
  policy : s.settings.policy = policy
  published : s.published = (roots.zip (cs.map (without opened))).reverse
  tracked : ∀ d ∈ cs.flatten, d.file ∉ opening → d.file ∈ s.tracked

section

variable {s : Scanner} {policy : Policy} {roots : List Path} {cs : List (List Diagnostic)}
  {opened opening : List Path}

/-- Files that are about to be open can be handed over. -/
theorem Retains.handOver (h : s.Retains policy roots cs opened opening)
    {second files : List Path} (ho : opening ⊆ second) (hf : files.map Path.normalize ⊆ second) :
    (s.after (files.map .clearFile)).Retains policy roots cs opened second := by
  have hs := h.sound.after (files.map .clearFile)
  rw [after_clearFiles] at hs ⊢
  refine ⟨hs, h.idle, h.policy, h.published, ?_⟩
  intro d hd hn
  have ht : d.file ∈ s.tracked := h.tracked d hd fun hm => hn (ho hm)
  refine List.mem_filter.2 ⟨ht, List.all_eq_true.2 ?_⟩
  intro q hq
  rw [Bool.not_eq_true', ← Bool.not_eq_true,
    (h.sound.tracked d.file ht).same_iff_eq q.isNormal_normalize]
  intro he
  rw [he] at hn
  exact hn (hf (List.mem_map_of_mem hq))

/-- A root that fails falls back on what it gave, but for the files that are open. -/
theorem Retains.kept_eq (h : s.Retains policy roots cs opened opening) (ho : opened ⊆ opening)
    (apart : roots.Pairwise fun p q => p.same q = false) (hl : cs.length = roots.length)
    {root : Path} {ds : List Diagnostic} (hm : (root, ds) ∈ roots.zip cs) :
    s.kept opening root = without opening ds := by
  have hz : (root, without opened ds) ∈ roots.zip (cs.map (without opened)) := by
    rw [List.zip_map_right]
    exact List.mem_map.2 ⟨(root, ds), hm, rfl⟩
  -- what is kept for the root lacks the files that were open in the last scan already
  have hlatest := latest_zip apart (by rw [List.length_map, hl]) hz
  rw [← h.published] at hlatest
  unfold kept
  rw [hlatest, ← without_without ho ds]
  refine List.filter_congr fun d hd => ?_
  rw [decide_eq_decide]
  refine ⟨fun hk => hk.2, fun hn => ⟨h.tracked d ?_ hn, hn⟩⟩
  exact List.mem_flatten.2 ⟨ds, (List.of_mem_zip hm).2, (mem_without.1 hd).1⟩

/-- A scan leaves a scanner that keeps what it has published. -/
theorem retains_of_published (hs : s.Sound) (hp : s.settings.policy = policy)
    (hcs : s.published = (roots.zip (cs.map (without opened))).reverse)
    (ht : s.tracked = ((cs.map (without opened)).flatten.map (·.file)).dedup)
    (hi : s.isScanning = false) : s.Retains policy roots cs opened opened := by
  refine ⟨hs, hi, hp, hcs, ?_⟩
  intro d hd hn
  rw [ht, List.mem_dedup, flatten_map_without]
  exact List.mem_map_of_mem (mem_without.2 ⟨hd, hn⟩)

end

section

variable {s : Scanner} {policy : Policy} {roots first opened : List Path} {outputs : List String}

theorem length_given (policy : Policy) (first : List Path)
    (hl : outputs.length = roots.length) :
    (given policy first roots outputs).length = roots.length := by
  rw [given, List.length_zipWith, hl, Nat.min_self]

/-- What roots give is about no file that is open. -/
theorem map_without_given (policy : Policy) (first roots : List Path) (outputs : List String) :
    (given policy first roots outputs).map (without first) = given policy first roots outputs := by
  rw [given, List.map_zipWith]
  congr 1
  funext root output
  exact (reported_eq_without policy first root (.ok output)).symm

/-- Where the run of every root succeeds, each root contributes what it gives, whatever is handed
over meanwhile. -/
theorem contributions_ok (first roots : List Path) {turns : List Turn}
    (h : turns.map Turn.reply = outputs.map Except.ok) :
    contributions first s roots turns = given s.settings.policy first roots outputs := by
  induction turns generalizing s roots outputs with
  | nil =>
    obtain rfl : outputs = [] := List.map_eq_nil_iff.1 h.symm
    cases roots <;> rfl
  | cons t turns ih =>
    cases outputs with
    | nil => cases h
    | cons output outputs =>
      obtain ⟨ht, h⟩ := List.cons.inj h
      cases roots with
      | nil => rfl
      | cons root roots =>
        simp only [contributions, ht]
        rw [ih roots h]
        show reported (t.meanwhile.foldl settle s).settings.policy first root (.ok output) :: _ = _
        rw [settings_foldl_settle]
        rfl

/-- Where replies repeat the outputs, each root contributes what it gave, but for the files that
are open: either it reports this again, or it falls back on it. -/
theorem contributions_repeats {replies : List Reply} (h : List.Forall₂ Repeats outputs replies)
    {second : List Path} (hp : s.settings.policy = policy) (ho : first ⊆ second)
    (hk : ∀ root ds, (root, ds) ∈ roots.zip (given policy first roots outputs) →
      s.kept second root = without second ds) :
    contributions second s roots (replies.map Turn.plain)
      = (given policy first roots outputs).map (without second) := by
  induction h generalizing roots with
  | nil => cases roots <;> rfl
  | @cons output r outputs replies hr _ ih =>
    -- nothing happens between the replies, so the other roots find the same scanner
    cases roots with
    | nil => rfl
    | cons root roots =>
      have hhead : s.contribution second root r
          = without second (reported policy first root (.ok output)) := by
        rcases hr with rfl | ⟨hf, -⟩
        · show reported s.settings.policy second root (.ok output) = _
          rw [hp]
          exact reported_of_subset ho policy root (.ok output)
        · rw [contribution, if_pos hf]
          exact hk root _ List.mem_cons_self
      have htail := ih fun root ds hm => hk root ds (List.mem_cons_of_mem _ hm)
      show s.contribution second root r :: contributions second s roots _ = _ :: _
      rw [hhead, htail]
      rfl

theorem goesOn_of_repeats {replies : List Reply} (h : List.Forall₂ Repeats outputs replies) :
    ∀ r ∈ replies, goesOn r = true := by
  induction h with
  | nil => exact fun _ hm => absurd hm List.not_mem_nil
  | cons hr _ ih =>
    intro r hm
    rcases List.mem_cons.1 hm with rfl | hm
    · rcases hr with rfl | ⟨-, hg⟩
      · rfl
      · exact hg
    · exact ih r hm

/-- Whether a response publishes diagnostics, and nothing else is tracked afterwards. -/
def Publishes (response : Option Response) (ds : List Diagnostic) : Prop :=
  ∃ s', response = some
      { answer := .progress (.completed (ds.map (·.file)).dedup.length ds.length)
        notices := [.setAll ds true]
        scanner := s' } ∧
    ∀ p, p ∈ s'.trackedFiles ↔ p ∈ ds.map (·.file)

/-- A scan whose roots contribute what is left of what they gave publishes this and keeps it. -/
theorem publishes_and_retains {cs : List (List Diagnostic)} (hs : s.Sound)
    (hi : s.isScanning = false) (hp : s.settings.policy = policy) {opened : List Path}
    (hne : roots ≠ []) (apart : roots.Pairwise fun p q => p.same q = false)
    {turns : List Turn} (hl : turns.length = roots.length)
    (hg : ∀ t ∈ turns, goesOn t.reply = true)
    (hcs : contributions (opened.map Path.normalize) s roots turns
      = cs.map (without (opened.map Path.normalize))) :
    let events := .start roots opened :: turns.flatMap Turn.events
    Publishes (s.trace events).getLast? (without (opened.map Path.normalize) cs.flatten) ∧
      (s.after events).Retains policy roots cs (opened.map Path.normalize)
        (opened.map Path.normalize) := by
  intro events
  have hlast := getLast?_trace_scan hs hi hne apart hl hg hcs
  have hafter := scanner_of_getLast?_trace hlast
  constructor
  · rw [← flatten_map_without]
    exact ⟨_, hlast, fun p => mem_trackedFiles.trans List.mem_dedup⟩
  · have hsound := hs.after events
    rw [← hafter] at hsound ⊢
    have hpol : ((turns.flatMap Turn.meanwhile).foldl settle s).settings.policy = policy := by
      rw [settings_foldl_settle, hp]
    exact retains_of_published hsound hpol rfl rfl rfl

/-- **One more scan** publishes what the first one has published, but for the files that are open,
and the scanner keeps that. -/
theorem Retains.rescan
    (h : s.Retains policy roots (given policy first roots outputs) opened opened)
    (hf : first ⊆ opened) (hne : roots ≠ []) (apart : roots.Pairwise fun p q => p.same q = false)
    (hl : outputs.length = roots.length) {r : Rescan} (hr : r.Follows outputs opened) :
    let second := r.opened.map Path.normalize
    Publishes (s.trace (r.events roots)).getLast?
        (without second (given policy first roots outputs).flatten) ∧
      (s.after (r.events roots)).Retains policy roots (given policy first roots outputs)
        second second := by
  intro second
  -- the files are handed over first, and the scan starts from what is tracked then
  have h₁ := h.handOver hr.opened hr.handed
  have hcs := contributions_repeats hr.replies h₁.policy (List.Subset.trans hf hr.opened)
    fun root ds hm => h₁.kept_eq hr.opened apart (length_given policy first hl) hm
  have hlr : (r.replies.map Turn.plain).length = roots.length := by
    rw [List.length_map, ← hr.replies.length_eq, hl]
  have hg : ∀ t ∈ r.replies.map Turn.plain, goesOn t.reply = true :=
    List.forall_mem_map.2 (goesOn_of_repeats hr.replies)
  obtain ⟨⟨s', hlast, ht⟩, hret⟩ :=
    publishes_and_retains h₁.sound h₁.idle h₁.policy hne apart hlr hg hcs
  rw [flatMap_events_plain] at hlast hret
  refine ⟨⟨s', ?_, ht⟩, ?_⟩
  · rw [Rescan.events, trace_append, List.getLast?_append, hlast]
    rfl
  · rw [Rescan.events, after_append]
    exact hret

/-- Every one of the scans that follow publishes what the first one has published, but for the
files that are open then. -/
theorem Retains.rescans
    (h : s.Retains policy roots (given policy first roots outputs) opened opened)
    (hf : first ⊆ opened) (hne : roots ≠ []) (apart : roots.Pairwise fun p q => p.same q = false)
    (hl : outputs.length = roots.length) {rescans : List Rescan}
    (hr : Follow outputs opened rescans) {k : Nat} {r : Rescan} (hk : rescans[k]? = some r) :
    Publishes (s.trace ((rescans.take (k + 1)).flatMap (Rescan.events roots))).getLast?
      (without (r.opened.map Path.normalize) (given policy first roots outputs).flatten) := by
  induction k generalizing s opened rescans with
  | zero =>
    cases rescans with
    | nil => cases hk
    | cons r' rescans =>
      obtain rfl : r' = r := Option.some.inj hk
      rw [List.take_succ_cons, List.take_zero, List.flatMap_cons, List.flatMap_nil,
        List.append_nil]
      exact (h.rescan hf hne apart hl hr.1).1
  | succ k ih =>
    cases rescans with
    | nil => cases hk
    | cons r' rescans =>
      obtain ⟨-, h'⟩ := h.rescan hf hne apart hl hr.1
      obtain ⟨s', hlast, ht⟩ := ih h' (List.Subset.trans hf hr.1.opened) hr.2 hk
      refine ⟨s', ?_, ht⟩
      rw [List.take_succ_cons, List.flatMap_cons, trace_append, List.getLast?_append, hlast]
      rfl

end

/-! ### The first scan and those after it -/

/-- **Scans that bring nothing new show nothing new and lose nothing.**  A first scan in which the
run of every root succeeds publishes diagnostics, none of them about a file that is open.  However
the roots fail in the scans that follow, and whatever is handed over in between of what is open from
then on, each scan publishes these diagnostics in their order, but for the files that are open in
it, and tracks the files of what it publishes. -/
theorem rescans_publish_first (settings : Settings) (before : List Event)
    (roots opened : List Path) (outputs : List String) (turns : List Turn) (rescans : List Rescan)
    (idle : (({ settings } : Scanner).after before).isScanning = false) (hne : roots ≠ [])
    (apart : roots.Pairwise fun p q => p.same q = false) (hl : outputs.length = roots.length)
    (ht : turns.map Turn.reply = outputs.map Except.ok)
    (hr : Follow outputs (opened.map Path.normalize) rescans) :
    let s := ({ settings } : Scanner).after before
    let first := .start roots opened :: turns.flatMap Turn.events
    ∃ ds, Publishes (s.trace first).getLast? ds ∧
      (∀ d ∈ ds, d.file ∉ opened.map Path.normalize) ∧
      ∀ k r, rescans[k]? = some r →
        Publishes
          (s.trace (first ++ (rescans.take (k + 1)).flatMap (Rescan.events roots))).getLast?
          (ds.filter (·.file ∉ r.opened.map Path.normalize)) := by
  intro s first
  have hs : s.Sound := sound_after settings before
  have hcs := contributions_ok (s := s) (opened.map Path.normalize) roots ht
  rw [← map_without_given] at hcs
  have hlt : turns.length = roots.length := by
    rw [← hl, ← List.length_map (f := Turn.reply), ht, List.length_map]
  have hg : ∀ t ∈ turns, goesOn t.reply = true := by
    intro t hm
    have hok : t.reply ∈ outputs.map Except.ok := by
      rw [← ht]
      exact List.mem_map_of_mem hm
    obtain ⟨output, -, he⟩ := List.mem_map.1 hok
    rw [← he]
    rfl
  obtain ⟨hpub, hret⟩ := publishes_and_retains hs idle rfl hne apart hlt hg hcs
  refine ⟨_, hpub, fun d hd => (mem_without.1 hd).2, ?_⟩
  intro k r hk
  obtain ⟨s', hlast, hfiles⟩ := hret.rescans (List.Subset.refl _) hne apart hl hr hk
  -- what the first scan left out is left out again, as its files are still open
  rw [← without_without (follow_subset hr hk)] at hlast hfiles
  refine ⟨s', ?_, hfiles⟩
  rw [trace_append, List.getLast?_append, hlast]
  rfl

/-- Each root fails once, and a file is handed over before it is open. -/
theorem rescans_publish_first_of_failures :
    let s : Scanner := { settings := {} }
    let roots : List Path := [⟨"/ws1"⟩, ⟨"/ws2"⟩]
    let outputs := [tooLongIn ["a.py", "b.py"], tooLongIn ["c.py", "d.py"]]
    let first : List Event := [.start roots [⟨"/ws2/c.py"⟩], .reply (.ok outputs[0]),
      .clearFile ⟨"/ws1/a.py"⟩, .reply (.ok outputs[1])]
    let rescans : List Rescan :=
      [⟨[⟨"/ws1/./a.py"⟩], [⟨"/ws1/a.py"⟩, ⟨"/ws2/c.py"⟩],
        [.error (.complaint "ruff" "ruff failed"), .ok outputs[1]]⟩,
      ⟨[], [⟨"/ws2//c.py"⟩, ⟨"/ws2/d.py"⟩, ⟨"/ws1/a.py"⟩],
        [.ok outputs[0], .error (.timeout "ruff" 100000)]⟩]
    Publishes (s.trace (first ++ (rescans.take 1).flatMap (Rescan.events roots))).getLast?
        [lineTooLong "/ws1/b.py", lineTooLong "/ws2/d.py"] ∧
      Publishes (s.trace (first ++ (rescans.take 2).flatMap (Rescan.events roots))).getLast?
        [lineTooLong "/ws1/b.py"] := by
  intro s roots outputs first rescans
  let turns : List Turn := [.plain (.ok outputs[0]),
    ⟨[.clearFile ⟨"/ws1/a.py"⟩], .ok outputs[1], by simp [Event.isAside]⟩]
  have hr : Follow outputs ([⟨"/ws2/c.py"⟩].map Path.normalize) rescans :=
    ⟨⟨.cons (.inr ⟨rfl, rfl⟩) (.cons (.inl rfl) .nil), by decide, by decide⟩,
      ⟨.cons (.inl rfl) (.cons (.inr ⟨rfl, rfl⟩) .nil), by decide, by decide⟩, trivial⟩
  obtain ⟨ds, hfirst, -, hall⟩ := rescans_publish_first {} [] roots [⟨"/ws2/c.py"⟩] outputs turns
    rescans rfl (by simp [roots]) (by decide) rfl rfl hr
  have hds : ds = [lineTooLong "/ws1/a.py", lineTooLong "/ws1/b.py", lineTooLong "/ws2/d.py"] := by
    obtain ⟨s', hlast, -⟩ := hfirst
    have hn : (s.trace first).getLast?.map (·.notices) = some [.setAll
        [lineTooLong "/ws1/a.py", lineTooLong "/ws1/b.py", lineTooLong "/ws2/d.py"] true] := by
      decide +kernel
    have hlast : (s.trace first).getLast? = _ := hlast
    rw [hlast] at hn
    simpa using hn
  have h₁ := hall 0 _ rfl
  have h₂ := hall 1 _ rfl
  rw [hds] at h₁ h₂
  constructor
  · have hleft : [lineTooLong "/ws1/a.py", lineTooLong "/ws1/b.py", lineTooLong "/ws2/d.py"].filter
        (·.file ∉ [⟨"/ws1/a.py"⟩, ⟨"/ws2/c.py"⟩].map Path.normalize)
        = [lineTooLong "/ws1/b.py", lineTooLong "/ws2/d.py"] := by decide
    rw [← hleft]
    exact h₁
  · have hleft : [lineTooLong "/ws1/a.py", lineTooLong "/ws1/b.py", lineTooLong "/ws2/d.py"].filter
        (·.file ∉ [⟨"/ws2//c.py"⟩, ⟨"/ws2/d.py"⟩, ⟨"/ws1/a.py"⟩].map Path.normalize)
        = [lineTooLong "/ws1/b.py"] := by decide
    rw [← hleft]
    exact h₂

end LintHost.Scanner
