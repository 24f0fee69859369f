/-
LintHost/Proofs/Scanner/Contribution.lean

What each root contributes to a scan, and what a scan comes to once all its replies
are in.  A reply that is a report contributes what it reports; one that tells that
the run has failed contributes what the root gave to the last completed scan, as far
as it is still shown and not open (`contribution`).  A contribution is read off the
scanner as it is when the reply comes in, after everything that has been handed over
by then, but it does not depend on the other replies of the scan (`contributions`).

Main result: a scan that waits, and gets a reply for each root it has left, none of
which ends it, publishes what it had found and the contributions of these roots
(`getLast?_trace_turns`).
-/
import LintHost.Proofs.Scanner.Sound

namespace LintHost.Scanner

open Analyzer

/-! ### Contributions -/

/-- What a reply itself reports about a root: the diagnostics that its findings become, in order,
but for those that name no file or an open one.  Nothing if it is no report. -/
def reported (policy : Policy) (opened : List Path) (root : Path) : Reply → List Diagnostic
  | .ok output =>
    match Report.decode output.toList with
    | .ok found => found.filterMap fun f => do
      let file := (root.join (.mk (← f.filename))).normalize
      if file ∈ opened then none else f.toDiagnostic? policy file 0
    | .error _ => []
  | .error _ => []

/-- What a root gave to the last completed scan, as far as it is still shown and not open. -/
def kept (s : Scanner) (opened : List Path) (root : Path) : List Diagnostic :=
  (latest s.published root).filter fun d => d.file ∈ s.tracked ∧ d.file ∉ opened

/-- Whether a run has failed, so that its reply tells nothing about the root. -/
def hasFailed : Reply → Bool
  | .ok _ => false
  | .error (.report _) => false
  | .error _ => true

/-- What a root contributes to a scan by a reply. -/
def contribution (s : Scanner) (opened : List Path) (root : Path) (r : Reply) :
    List Diagnostic :=
  if hasFailed r then s.kept opened root else reported s.settings.policy opened root r

/-- What roots contribute by one turn each. -/
def contributions (opened : List Path) : Scanner → List Path → List Turn → List (List Diagnostic)
  | s, root :: roots, t :: turns =>
    let s := t.meanwhile.foldl settle s
    s.contribution opened root t.reply :: contributions opened s roots turns
  | _, _, _ => []

/-- A report that finds a line too long at the start of each of some files. -/
def tooLongIn (files : List String) : String :=
  "[" ++ ",".intercalate (files.map fun f => "[\"" ++ f ++ "\",\"E501\",\"m\",[1,1],[1,4]]") ++ "]"

def reportOn (files : List String) : Reply :=
  .ok (tooLongIn files)

/-- What such a finding becomes. -/
def lineTooLong (file : String) : Diagnostic :=
  ⟨.error, some "E501", "E501 — m", ⟨file⟩, ⟨⟨0, 0⟩, ⟨0, 3⟩⟩⟩

variable {s : Scanner}

theorem placed?_eq {policy : Policy} {root : Path} {opened : List Path}
    (ho : ∀ p ∈ opened, p.IsNormal) (f : Finding) :
    placed? policy root opened f = (do
      let file := (root.join (.mk (← f.filename))).normalize
      if file ∈ opened then none else f.toDiagnostic? policy file 0) := by
  rcases e : f.filename with - | name
  · simp [placed?, e]
  · have hc := contains_iff_mem ho (root.join ⟨name⟩).isNormal_normalize
    by_cases h : (root.join ⟨name⟩).normalize ∈ opened
    · simp [placed?, e, h, hc.2 h]
    · have hc' : contains opened (root.join ⟨name⟩).normalize = false := by
        rw [← Bool.not_eq_true, hc]
        exact h
      simp [placed?, e, h, hc']

theorem carried_eq (hs : s.Sound) {opened : List Path} (ho : ∀ p ∈ opened, p.IsNormal)
    (root : Path) : s.carried root opened = s.kept opened root := by
  refine List.filter_congr fun d hd => ?_
  have hn := hs.published.latest root d hd
  rw [Bool.eq_iff_iff, Bool.and_eq_true, contains_iff_mem hs.tracked hn, Bool.not_eq_true',
    ← Bool.not_eq_true, contains_iff_mem ho hn, decide_eq_true_eq]

/-- A reply that does not end the scan brings the contribution of its root. -/
theorem foundBy_eq (hs : s.Sound) {opened : List Path} (ho : ∀ p ∈ opened, p.IsNormal)
    (root : Path) {r : Reply} (hg : goesOn r = true) :
    s.foundBy root opened r = some (s.contribution opened root r) := by
  cases r with
  | ok output =>
    have hf : placed? s.settings.policy root opened = _ := funext fun f => placed?_eq ho f
    rcases e : Report.decode output.toList with fault | found
    · simp [Scanner.foundBy, contribution, hasFailed, reported, e]
    · simp [Scanner.foundBy, contribution, hasFailed, reported, e, hf]
  | error failure =>
    have he : failure.endsScan = false := by simpa [goesOn] using hg
    cases failure with
    | report fault => rfl
    | start program cause => cases he
    | transfer program cause | complaint program cause | status program cause
    | timeout program cause | overflow program cause =>
      show some (s.carried root opened) = some (s.kept opened root)
      rw [carried_eq hs ho]

/-- Contributions do not depend on how far the scan has come. -/
theorem contributions_with_pending (opened : List Path) (s : Scanner) (p : Option Scan)
    (roots : List Path) (turns : List Turn) :
    contributions opened { s with pending := p } roots turns
      = contributions opened s roots turns := by
  induction turns generalizing s roots with
  | nil => cases roots <;> rfl
  | cons t turns ih =>
    cases roots with
    | nil => rfl
    | cons root roots =>
      simp only [contributions]
      rw [foldl_settle_with_pending, ih]
      rfl

theorem length_contributions (opened : List Path) (s : Scanner) {roots : List Path}
    {turns : List Turn} (h : turns.length = roots.length) :
    (contributions opened s roots turns).length = roots.length := by
  induction roots generalizing s turns with
  | nil => cases turns <;> rfl
  | cons root roots ih =>
    cases turns with
    | nil => cases h
    | cons t turns =>
      simp only [contributions, List.length_cons]
      rw [ih _ (Nat.succ.inj h)]

/-- Each root contributes by its own reply alone, once everything has been given up that was to be
given up until then. -/
theorem getElem?_contributions (opened : List Path) (s : Scanner) {roots : List Path}
    {turns : List Turn} {i : Nat} {root : Path} {t : Turn} (hr : roots[i]? = some root)
    (ht : turns[i]? = some t) :
    (contributions opened s roots turns)[i]? = some
      ((((turns.take (i + 1)).flatMap Turn.meanwhile).foldl settle s).contribution opened root
        t.reply) := by
  induction i generalizing s roots turns with
  | zero =>
    cases roots with
    | nil => cases hr
    | cons root' roots =>
      cases turns with
      | nil => cases ht
      | cons t' turns =>
        obtain rfl : root' = root := Option.some.inj hr
        obtain rfl : t' = t := Option.some.inj ht
        simp [contributions]
  | succ i ih =>
    cases roots with
    | nil => cases hr
    | cons root' roots =>
      cases turns with
      | nil => cases ht
      | cons t' turns =>
        rw [contributions, List.getElem?_cons_succ, ih _ hr ht, List.take_succ_cons,
          List.flatMap_cons, List.foldl_append]

/-! ### Findings of several roots -/

/-- What has been found below a root later counts. -/
theorem latest_append (found older : Findings) (root : Path) :
    latest (found ++ older) root
      = ((found.find? fun f => f.1.same root).map (·.2)).getD (latest older root) := by
  unfold latest
  rw [List.find?_append]
  cases found.find? fun f => f.1.same root <;> rfl

/-- Below roots that are all different, what has been found is what was put in. -/
theorem latest_of_mem {found : Findings}
    (apart : (found.map (·.1)).Pairwise fun p q => p.same q = false) {root : Path}
    {ds : List Diagnostic} (h : (root, ds) ∈ found) : latest found root = ds := by
  have hs : root.same root = true := by simp [Path.same]
  obtain ⟨first, others, rfl⟩ := List.append_of_mem h
  rw [List.map_append, List.pairwise_append] at apart
  have hn : first.find? (fun f => f.1.same root) = none := by
    rw [List.find?_eq_none]
    intro f hf
    simp [apart.2.2 f.1 (List.mem_map_of_mem hf) root List.mem_cons_self]
  rw [latest_append, hn]
  simp [latest, hs]

theorem latest_of_apart {found : Findings} {root : Path}
    (h : ∀ f ∈ found, f.1.same root = false) : latest found root = [] := by
  have hn : found.find? (fun f => f.1.same root) = none := by
    rw [List.find?_eq_none]
    intro f hf
    simp [h f hf]
  simp [latest, hn]

section

variable {roots : List Path} {cs : List (List Diagnostic)}

/-- Of roots that are all different, each is taken to have given what it gave. -/
theorem latest_zip (apart : roots.Pairwise fun p q => p.same q = false)
    (h : cs.length = roots.length) {rc : Path × List Diagnostic} (hm : rc ∈ roots.zip cs) :
    latest (roots.zip cs).reverse rc.1 = rc.2 := by
  refine latest_of_mem ?_ (List.mem_reverse.2 hm)
  rw [List.map_reverse, List.map_fst_zip (Nat.le_of_eq h.symm), List.pairwise_reverse]
  refine apart.imp ?_
  intro p q hpq
  rw [Path.same, BEq.comm]
  exact hpq

theorem flatMap_latest_zip (apart : roots.Pairwise fun p q => p.same q = false)
    (h : cs.length = roots.length) :
    roots.flatMap (latest (roots.zip cs).reverse) = cs.flatten := by
  have hr : (roots.zip cs).map Prod.fst = roots := List.map_fst_zip (Nat.le_of_eq h.symm)
  have hc : (roots.zip cs).map Prod.snd = cs := List.map_snd_zip (Nat.le_of_eq h)
  have hm : roots.map (latest (roots.zip cs).reverse) = cs := by
    calc roots.map (latest (roots.zip cs).reverse)
        = ((roots.zip cs).map Prod.fst).map (latest (roots.zip cs).reverse) := by rw [hr]
      _ = (roots.zip cs).map fun rc => latest (roots.zip cs).reverse rc.1 := List.map_map
      _ = (roots.zip cs).map Prod.snd :=
          List.map_congr_left fun rc hrc => latest_zip apart h hrc
      _ = cs := hc
  rw [List.flatMap_def, hm]

end

/-! ### All turns of a scan -/

/-- What a scan that waits has found once each root that is left has had its turn. -/
def gathered (s : Scanner) (scan : Scan) (turns : List Turn) : Findings :=
  ((scan.root :: scan.left).zip
    (contributions scan.opened s (scan.root :: scan.left) turns)).reverse ++ scan.found

theorem gathered_with_pending (s : Scanner) (p : Option Scan) (scan : Scan) (turns : List Turn) :
    ({ s with pending := p } : Scanner).gathered scan turns = s.gathered scan turns := by
  unfold gathered
  rw [contributions_with_pending]

/-- After one turn, what is gathered is what the scan gathers from then on. -/
theorem gathered_cons (s : Scanner) (roots : List Path) (root next : Path)
    (left opened : List Path) (found : Findings) (t : Turn) (turns : List Turn) :
    let c := t.meanwhile.foldl settle s
    s.gathered ⟨roots, root, next :: left, opened, found⟩ (t :: turns)
      = c.gathered ⟨roots, next, left, opened, (root, c.contribution opened root t.reply) :: found⟩
          turns := by
  intro c
  simp [gathered, contributions, c]

theorem gathered_last (s : Scanner) (roots : List Path) (root : Path) (opened : List Path)
    (found : Findings) (t : Turn) :
    s.gathered ⟨roots, root, [], opened, found⟩ [t]
      = (root, (t.meanwhile.foldl settle s).contribution opened root t.reply) :: found := rfl

theorem trace_ne_nil {events : List Event} (h : events ≠ []) (s : Scanner) :
    s.trace events ≠ [] := by
  cases events with
  | nil => exact absurd rfl h
  | cons e events => exact List.cons_ne_nil _ _

/-- After what has happened meanwhile, a turn is the reply to a scan that has gone on waiting. -/
theorem after_meanwhile (hs : s.Sound) {scan : Scan} (hp : s.pending = some scan) (t : Turn)
    (hg : goesOn t.reply = true) :
    let c := t.meanwhile.foldl settle s
    s.after t.meanwhile = c ∧ c.pending = some scan ∧
      c.foundBy scan.root scan.opened t.reply
        = some (c.contribution scan.opened scan.root t.reply) := by
  intro c
  have hc : s.after t.meanwhile = c := after_asides (by simp [isScanning, hp]) t.aside
  have hcp : c.pending = some scan := by rw [← hp, pending_foldl_settle]
  refine ⟨hc, hcp, ?_⟩
  exact foundBy_eq (hs.foldl_settle _) (hs.pending scan hp).opened scan.root hg

/-- The last turn publishes what has been gathered. -/
theorem getLast?_trace_last (hs : s.Sound) {roots : List Path} {root : Path} {opened : List Path}
    {found : Findings} (hp : s.pending = some ⟨roots, root, [], opened, found⟩) (t : Turn)
    (hg : goesOn t.reply = true) :
    (s.trace t.events).getLast? = some (.ofStep ((t.meanwhile.foldl settle s).publish roots
      (s.gathered ⟨roots, root, [], opened, found⟩ [t]))) := by
  obtain ⟨hc, hcp, hd⟩ := after_meanwhile hs hp t hg
  rw [Turn.events, getLast?_trace_concat, hc, gathered_last]
  show some (Response.ofStep (receive _ t.reply)) = _
  simp only [receive, hcp, hd]

/-- Any other turn leaves the scan waiting for the next root. -/
theorem after_turn (hs : s.Sound) {roots : List Path} {root next : Path} {left opened : List Path}
    {found : Findings} (hp : s.pending = some ⟨roots, root, next :: left, opened, found⟩) (t : Turn)
    (hg : goesOn t.reply = true) :
    let c := t.meanwhile.foldl settle s
    let scan : Scan :=
      ⟨roots, next, left, opened, (root, c.contribution opened root t.reply) :: found⟩
    s.after t.events = { c with pending := some scan } := by
  intro c scan
  obtain ⟨hc, hcp, hd⟩ := after_meanwhile hs hp t hg
  rw [Turn.events, after_append, hc]
  show (receive _ t.reply).scanner = _
  simp only [receive, hcp, hd]
  rfl

/-- **A scan that gets a reply for each root it has left** publishes what it had found and what
these roots contribute. -/
theorem getLast?_trace_turns (hs : s.Sound) (scan : Scan) (hp : s.pending = some scan)
    {turns : List Turn} (hl : turns.length = scan.left.length + 1)
    (hg : ∀ t ∈ turns, goesOn t.reply = true) :
    (s.trace (turns.flatMap Turn.events)).getLast?
      = some (.ofStep (((turns.flatMap Turn.meanwhile).foldl settle s).publish scan.roots
          (s.gathered scan turns))) := by
  -- one root after the other; the scanner and the scan change with each turn
  induction turns generalizing s scan with
  | nil => cases hl
  | cons t turns ih =>
    obtain ⟨roots, root, left, opened, found⟩ := scan
    have hgt : goesOn t.reply = true := hg t List.mem_cons_self
    cases left with
    | nil =>
      obtain rfl : turns = [] := List.length_eq_zero_iff.1 (Nat.succ.inj hl)
      have hlast := getLast?_trace_last hs hp t hgt
      simpa using hlast
    | cons next left =>
      have ha := after_turn hs hp t hgt
      have hsa := hs.after t.events
      rw [ha] at hsa
      have hih := ih hsa _ rfl (Nat.succ.inj hl) fun u hu => hg u (List.mem_cons_of_mem _ hu)
      rw [gathered_with_pending, foldl_settle_with_pending (t.meanwhile.foldl settle s)] at hih
      rw [List.flatMap_cons, trace_append, List.getLast?_append, ha, hih, List.flatMap_cons,
        List.foldl_append, gathered_cons]
      rfl

/-- What has been gathered is about normal files. -/
theorem tidy_gathered (hs : s.Sound) (scan : Scan) (hp : s.pending = some scan)
    {turns : List Turn} (hl : turns.length = scan.left.length + 1)
    (hg : ∀ t ∈ turns, goesOn t.reply = true) : Tidy (s.gathered scan turns) := by
  have h := scanner_of_getLast?_trace (getLast?_trace_turns hs scan hp hl hg)
  have ha := (hs.after (turns.flatMap Turn.events)).published
  rw [← h] at ha
  exact ha

end LintHost.Scanner
