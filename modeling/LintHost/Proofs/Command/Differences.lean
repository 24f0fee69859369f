/-
LintHost/Proofs/Command/Differences.lean

What a command shows that only shows what would change.  It does what the command does
that rewrites the file, up to the point where that one writes (`attemptRun_eq`), and
until then both only look at the disk.  So both make the same of the file, on any machine.

Main result: what is shown turns what is in the file into what the other command leaves in
it (`diff_shows_rewrite`).
-/
import LintHost.Proofs.Command.Rewriting
import LintHost.Proofs.Diff.Applying
import LintHost.Proofs.Host.Outcomes
import LintHost.Proofs.Host.Regular
import LintHost.Proofs.Storage.Replacing

namespace LintHost

open Analyzer Storage

variable {σ α β ε : Type} {m m' : Machine σ}

/-! ### Machines -/

/-- A plan that only looks leaves the disk of a machine alone. -/
theorem Machine.disk_run_of_isStill {p : Plan α} (hp : p.IsStill) (m : Machine σ) :
    (m.run p).2.disk = m.disk := by
  induction p generalizing m with
  | done a => rfl
  | ask r next ih =>
    have hanswer : (m.answer r).2.disk = m.disk := by
      cases r with
      | run call => exact m.disk_answer_run call
      | read | isThere | permissions => rfl
      | _ => exact hp.1.elim
    rw [← hanswer]
    exact ih _ (hp.2 _) _

/-- Reading a text looks at its file and at nothing else. -/
theorem Machine.run_readText (m : Machine σ) (file : Path) :
    m.run (readText file) = (match m.disk.read file with
      | .error fault => .error fault
      | .ok bytes =>
        match Text.decode? bytes with
        | none => .error .notText
        | some text => .ok (String.ofList text), m) := by
  have hanswer : m.answer (.read file) = (m.disk.read file, m) := rfl
  rw [readText, Machine.run_then, Machine.run_request, hanswer]
  cases m.disk.read file with
  | error fault => rfl
  | ok bytes =>
    dsimp only
    cases Text.decode? bytes <;> rfl

/-! ### Up to the writing -/

/-- The action that only shows what would change. -/
def Action.showing : Action → Action
  | .fix file _ => .fix file true
  | .format file lines _ => .format file lines true
  | action => action

namespace Command

/-- The command that only shows what would change. -/
def showing (c : Command) : Command :=
  { c with action := c.action.showing }

/-- The document in the file of a command that rewrites, and what the command makes of it. -/
def reworked (at' : Setting) (c : Command) : Attempt Chain (Document × Document) := do
  let s ← loadSettings at' c.settingsFile
  match c.action with
  | .fix file _ => do
    let d ← readDocument at' file
    let text ← asking (d.fixedText s)
    return (d, { d with text := text.getD d.text })
  | .format file lines _ => do
    let d ← readDocument at' file
    let (result, after) ← ExceptT.lift <| Plan.consult <|
      match lines with
      | some r => d.formatLines s r
      | none => d.format s
    match result with
    | .error failure => throw (ofFailure failure)
    | .ok _ => return (d, after)
  | _ => throw []

variable {at' : Setting} {c : Command} {file : Path} {diff : Bool}

/-- A command that rewrites writes back what it makes of the document. -/
theorem attemptRun_eq (hc : c.action.rewrites? = some (file, diff)) :
    attemptRun at' c = reworked at' c >>= fun d => writeBack d.1 d.2 diff := by
  obtain ⟨verbosity, settingsFile, action⟩ := c
  cases action with
  | fix file' diff' =>
    cases hc
    unfold attemptRun reworked fix
    simp only [attempt_bind_assoc]
    rfl
  | format file' lines diff' =>
    cases hc
    unfold attemptRun reworked format
    simp only [attempt_bind_assoc]
    congr 1
    funext s
    congr 1
    funext d
    congr 1
    funext made
    obtain ⟨_ | _, _⟩ := made <;> rfl
  | _ => cases hc

theorem reworked_showing (at' : Setting) (c : Command) :
    reworked at' c.showing = reworked at' c := by
  obtain ⟨_, _, action⟩ := c
  cases action <;> rfl

theorem isStill_bind {x : Attempt ε α} {f : α → Attempt ε β} (hx : x.run.IsStill)
    (hf : ∀ a, (f a).run.IsStill) : (x >>= f).run.IsStill := by
  refine Plan.IsStill.bind hx fun r => ?_
  cases r with
  | error => trivial
  | ok a => exact hf a

/-- Until it writes, a command that rewrites only looks. -/
theorem isStill_reworked (at' : Setting) (c : Command) : (reworked at' c).run.IsStill := by
  refine isStill_bind (isStill_loadSettings at' _) fun s => ?_
  split
  · exact isStill_bind (isStill_readDocument at' _) fun d =>
      isStill_bind (isStill_asking _) fun _ => trivial
  · refine isStill_bind (isStill_readDocument at' _) fun d =>
      isStill_bind (isStill_lift (isStill_consult _)) fun made => ?_
    obtain ⟨_ | _, _⟩ := made <;> trivial
  · trivial

theorem run_attempt (m : Machine σ) (tell : ε → Chain) (p : Plan (Except ε α)) :
    m.run (attempt tell p).run = ((m.run p).1.mapError tell, (m.run p).2) := by
  show m.run (p.bind fun r => .done (r.mapError tell)) = _
  rw [Machine.run_bind]
  rfl

theorem run_attempt_iff {tell : ε → Chain} {p : Plan (Except ε α)} {a : α} :
    m.run (attempt tell p).run = (.ok a, m') ↔ m.run p = (.ok a, m') := by
  rw [run_attempt]
  rcases m.run p with ⟨_ | b, m₁⟩
  · constructor <;> intro h <;> cases h
  · constructor <;> intro h <;> cases h <;> rfl

/-- A document that was read has the absolute path of its file, and its text is what the bytes
there spell. -/
theorem run_readDocument {d : Document} (h : m.run (readDocument at' file).run = (.ok d, m')) :
    d.path = Path.absolute at'.directory file ∧
      ∃ bytes, m.disk.read d.path = .ok bytes ∧ Text.decode? bytes = some d.text.toList := by
  obtain ⟨text, m₁, hread, hd⟩ := Machine.run_attempt_bind_iff.1 h
  rw [run_attempt_iff, Machine.run_readText] at hread
  cases hd
  refine ⟨rfl, ?_⟩
  dsimp only
  cases hbytes : m.disk.read (Path.absolute at'.directory file) with
  | error fault =>
    rw [hbytes] at hread
    cases hread
  | ok bytes =>
    rw [hbytes] at hread
    dsimp only at hread
    cases hchars : Text.decode? bytes with
    | none =>
      rw [hchars] at hread
      cases hread
    | some chars =>
      rw [hchars] at hread
      cases hread
      exact ⟨bytes, rfl, by rw [hchars, String.toList_ofList]⟩

/-- A document that is formatted stays where it is. -/
theorem path_of_format {s : Settings} {d : Document} {lines : Option LineRange}
    {made : Except Failure Bool × Document}
    (h : (Plan.consult (match lines with
      | some r => d.formatLines s r
      | none => d.format s)).ComesTo made) : made.2.path = d.path := by
  cases lines with
  | none =>
    dsimp only at h
    rw [Document.format, Plan.consult_then, comesTo_bind_iff] at h
    obtain ⟨reply, -, h⟩ := h
    cases reply <;> cases h <;> rfl
  | some r =>
    dsimp only at h
    by_cases hnil : (Document.Selection.ofRange r d.text.toList).lines = []
    · rw [Document.formatLines_of_nil hnil] at h
      cases h
      rfl
    · rw [Document.formatLines_eq s rfl hnil] at h
      obtain ⟨reply, h⟩ := h
      cases reply <;> cases h <;> rfl

/-- The document of a command that rewrites stays where it is. -/
theorem path_of_reworked {before after : Document}
    (h : (reworked at' c).run.ComesTo (.ok (before, after))) : after.path = before.path := by
  obtain ⟨s, -, h⟩ := comesTo_attempt_bind_iff.1 h
  split at h
  · obtain ⟨d, -, h⟩ := comesTo_attempt_bind_iff.1 h
    obtain ⟨text, -, h⟩ := comesTo_attempt_bind_iff.1 h
    cases h
    rfl
  · obtain ⟨d, -, h⟩ := comesTo_attempt_bind_iff.1 h
    obtain ⟨made, hmade, h⟩ := comesTo_attempt_bind_iff.1 h
    have hpath := path_of_format (comesTo_lift_iff.1 hmade)
    obtain ⟨_ | _, _⟩ := made <;> cases h
    exact hpath
  · cases h

/-- **What a command that rewrites has read** when it comes to writing. -/
theorem run_reworked {before after : Document} (hc : c.action.rewrites? = some (file, diff))
    (h : m.run (reworked at' c).run = (.ok (before, after), m')) :
    before.path = Path.absolute at'.directory file ∧
      ∃ bytes, m.disk.read before.path = .ok bytes ∧
        Text.decode? bytes = some before.text.toList := by
  obtain ⟨s, m₁, hload, h⟩ := Machine.run_attempt_bind_iff.1 h
  have hdisk : m₁.disk = m.disk := by
    rw [← Machine.disk_run_of_isStill (isStill_loadSettings at' c.settingsFile) m, hload]
  rw [← hdisk]
  obtain ⟨verbosity, settingsFile, action⟩ := c
  cases action with
  | fix file' diff' =>
    cases hc
    obtain ⟨d, m₂, hread, h⟩ := Machine.run_attempt_bind_iff.1 h
    obtain ⟨text, m₃, -, h⟩ := Machine.run_attempt_bind_iff.1 h
    cases h
    exact run_readDocument hread
  | format file' lines diff' =>
    cases hc
    obtain ⟨d, m₂, hread, h⟩ := Machine.run_attempt_bind_iff.1 h
    obtain ⟨made, m₃, -, h⟩ := Machine.run_attempt_bind_iff.1 h
    obtain ⟨_ | _, _⟩ := made <;> cases h
    exact run_readDocument hread
  | _ => cases hc

/-! ### Writing back -/

/-- Writing a document back succeeds only if its text is in the file then. -/
theorem run_writeBack {before after : Document} {bytes : List UInt8} {outcome : Outcome}
    (hpath : after.path = before.path) (hread : m.disk.read before.path = .ok bytes)
    (hd : Text.decode? bytes = some before.text.toList)
    (h : m.run (writeBack before after false).run = (.ok outcome, m')) :
    m'.disk.read before.path = .ok (Text.encode after.text.toList) := by
  unfold writeBack at h
  split at h
  · next hsame =>
    cases h
    rw [hsame, Text.encode_of_decode? hd]
    exact hread
  · obtain ⟨_, m₁, hwrite, h⟩ := Machine.run_attempt_bind_iff.1 h
    rw [run_attempt_iff] at hwrite
    cases h
    have hdone := @Machine.read_replace σ m after.path (Text.encode after.text.toList)
    unfold replaceText at hwrite
    rw [hwrite, hpath] at hdone
    exact hdone rfl

/-- What is shown in place of writing a document back. -/
theorem run_writeBack_diff (m : Machine σ) (before after : Document) :
    m.run (writeBack before after true).run = (.ok (
      if after.text = before.text then {}
      else { output := Diff.unified after.path.text before.text after.text }), m) := by
  unfold writeBack
  split
  · rfl
  · rfl

/-! ### Whole commands -/

theorem run_of_ok {outcome : Outcome} (h : m.run (attemptRun at' c).run = (.ok outcome, m')) :
    m.run (run at' c) = (outcome, m') := by
  unfold run
  rw [Machine.run_bind, h]
  rfl

theorem run_of_error {chain : Chain} (h : m.run (attemptRun at' c).run = (.error chain, m')) :
    m.run (run at' c) = (failed chain, m') := by
  unfold run
  rw [Machine.run_bind, h]
  rfl

/-- A command that ends with zero has been carried out. -/
theorem attemptRun_of_code (hcode : (m.run (run at' c)).1.code = 0) :
    m.run (attemptRun at' c).run = (.ok (m.run (run at' c)).1, (m.run (run at' c)).2) := by
  rcases hrun : m.run (attemptRun at' c).run with ⟨chain | outcome, m'⟩
  · rw [run_of_error hrun] at hcode
    cases hcode
  · rw [run_of_ok hrun]

theorem rewrites?_showing (hc : c.action.rewrites? = some (file, diff)) :
    c.showing.action.rewrites? = some (file, true) := by
  obtain ⟨_, _, action⟩ := c
  cases action <;> cases hc <;> rfl

open Diff (linesOf patched? strictlyPatched? readUnified? IsValidScript Hunk.IsFramed)

/-- **What is shown is what would be written.**  Take any machine, and a command that rewrites a
file and succeeds.  The command that only shows what would change then leaves the disk alone,
succeeds, and shows nothing if and only if the text of the file does not change.  If it does, what
is shown turns the text before into the text after, by its rows, its remarks on missing ends and
the places in the old text where its hunks start.  The other numbers in its titles are right as
well if the edits between the two texts say where they stand, or if all hunks begin and end in kept
lines. -/
theorem diff_shows_rewrite (m : Machine σ) (at' : Setting) (c : Command) (file : Path)
    (hc : c.action.rewrites? = some (file, false)) (hcode : (m.run (run at' c)).1.code = 0) :
    let path := Path.absolute at'.directory file
    let shown := (m.run (run at' c.showing)).1
    let after := (m.run (run at' c.showing)).2
    ∃ old new : String, m.disk.read path = .ok (Text.encode old.toList) ∧
      (m.run (run at' c)).2.disk.read path = .ok (Text.encode new.toList) ∧
      after.disk = m.disk ∧ shown.code = 0 ∧ shown.errors = "" ∧
      (shown.output = "" ↔ new = old) ∧
      (new ≠ old → patched? path.text shown.output old = some new ∧
        (IsValidScript (linesOf old) (linesOf new) ∨
            (∀ hunks, readUnified? path.text shown.output = some hunks →
              ∀ hunk ∈ hunks, hunk.IsFramed) →
          strictlyPatched? path.text shown.output old = some new)) := by
  intro path shown after
  have hplain := attemptRun_of_code hcode
  rw [attemptRun_eq hc] at hplain
  obtain ⟨⟨before, made⟩, m₁, hreworked, hwrite⟩ := Machine.run_attempt_bind_iff.1 hplain
  obtain ⟨hpath, bytes, hread, hd⟩ := run_reworked hc hreworked
  have hmade : made.path = before.path := by
    have hcomes := m.comesTo_run (reworked at' c).run
    rw [hreworked] at hcomes
    exact path_of_reworked hcomes
  have hdisk : m₁.disk = m.disk := by
    rw [← Machine.disk_run_of_isStill (isStill_reworked at' c) m, hreworked]
  have hwritten := run_writeBack hmade (by rwa [hdisk]) hd hwrite
  have hshown : m.run (attemptRun at' c.showing).run = (.ok (
      if made.text = before.text then {}
      else { output := Diff.unified made.path.text before.text made.text }), m₁) := by
    rw [attemptRun_eq (rewrites?_showing hc), reworked_showing]
    exact Machine.run_attempt_bind_iff.2 ⟨_, _, hreworked, run_writeBack_diff m₁ before made⟩
  have hafter : after = m₁ := congrArg Prod.snd (run_of_ok hshown)
  have hshown : shown = _ := congrArg Prod.fst (run_of_ok hshown)
  rw [hpath] at hread hwritten
  rw [← Text.encode_of_decode? hd] at hread
  refine ⟨before.text, made.text, hread, hwritten, hafter ▸ hdisk, ?_⟩
  rw [hshown]
  split
  · next hsame => exact ⟨rfl, rfl, ⟨fun _ => hsame, fun _ => rfl⟩, fun h => absurd hsame h⟩
  · next hne =>
    rw [hmade, hpath]
    refine ⟨rfl, rfl, ⟨fun h => absurd h (Diff.unified_ne_empty _ hne), fun h => absurd h hne⟩,
      fun _ => ⟨Diff.patched?_unified _ hne, Diff.strictlyPatched?_unified _ hne⟩⟩

/-! ### One file -/

/-- A machine with one file, whose analyzer writes the same text whatever it is given. -/
def rewriter (old new : String) : Machine Unit where
  disk := { entries := [(["a.py"], .file (Text.encode old.toList) 0o644)] }
  program? _ := some fun _ _ _ _ => (⟨[(.output, Text.encode new.toList)], .exited 0, 0⟩, ())
  state := ()

/-- The command that fixes the one file. -/
def fixOne : Command where
  verbosity := 0
  settingsFile := none
  action := .fix ⟨"a.py"⟩ false

/-- One file holds one text. -/
theorem eq_of_read {path : Path} {s t : String}
    (hs : m.disk.read path = .ok (Text.encode s.toList))
    (ht : m.disk.read path = .ok (Text.encode t.toList)) : s = t := by
  have hsame := congrArg Text.decode? (Except.ok.inj (hs.symm.trans ht))
  rw [Text.decode?_encode, Text.decode?_encode] at hsame
  exact String.toList_inj.1 (Option.some.inj hsame)

/-- The edits of a change between kept lines say where they stand. -/
theorem isValidScript_middle : IsValidScript (linesOf "a\nb\nc") (linesOf "a\nx\nc") := by
  have hedits : Diff.compact (linesOf "a\nx\nc")
      (Diff.edits (linesOf "a\nb\nc") (linesOf "a\nx\nc"))
      = [.keep 0 0 1, ⟨.replace, 1, 1, 1, 1⟩, .keep 2 2 1] := by
    decide +kernel
  rw [IsValidScript, hedits]
  exact ⟨⟨.plain (.keep (by decide) (by decide) (by decide) (by decide)), rfl, rfl⟩,
    ⟨.replace (by decide) (by decide) (by decide) (by decide), rfl, rfl⟩,
    ⟨.plain (.keep (by decide) (by decide) (by decide) (by decide)), rfl, rfl⟩, rfl, rfl⟩

/-- A change between kept lines, the last of which has no end. -/
theorem diff_shows_rewrite_of_middle :
    let m := rewriter "a\nb\nc" "a\nx\nc"
    let path := Path.absolute bareSetting.directory ⟨"a.py"⟩
    let shown := (m.run (run bareSetting fixOne.showing)).1
    fixOne.action.rewrites? = some (⟨"a.py"⟩, false) ∧
      (m.run (run bareSetting fixOne)).1.code = 0 ∧
      IsValidScript (linesOf "a\nb\nc") (linesOf "a\nx\nc") ∧
      shown.output = Diff.header "/a.py"
        ++ "@@ -1,3 +1,3 @@\n a\n-b\n+x\n c\n\\ No newline at end of file\n" ∧
      patched? path.text shown.output "a\nb\nc" = some "a\nx\nc" ∧
      strictlyPatched? path.text shown.output "a\nb\nc" = some "a\nx\nc" := by
  intro m path shown
  have hc : fixOne.action.rewrites? = some (⟨"a.py"⟩, false) := rfl
  have hcode : (m.run (run bareSetting fixOne)).1.code = 0 := by decide +kernel
  have houtput : shown.output = Diff.header "/a.py"
      ++ "@@ -1,3 +1,3 @@\n a\n-b\n+x\n c\n\\ No newline at end of file\n" := by
    decide +kernel
  obtain ⟨old, new, hold, hnew, -, -, -, -, hpatched⟩ :=
    diff_shows_rewrite m bareSetting fixOne ⟨"a.py"⟩ hc hcode
  obtain rfl : old = "a\nb\nc" := eq_of_read hold (by decide +kernel)
  obtain rfl : new = "a\nx\nc" := eq_of_read hnew (by decide +kernel)
  obtain ⟨hpatched, hstrictly⟩ := hpatched (by decide)
  have hvalid := isValidScript_middle
  exact ⟨hc, hcode, hvalid, houtput, hpatched, hstrictly (.inl hvalid)⟩

end Command

end LintHost
