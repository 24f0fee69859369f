/-
LintHost/Proofs/Command/LineRanges.lean

The lines of a file on the command line, from the words to the file.  The option is read in both
of its forms (`readFrom_lines_next`, `readFrom_lines_equals`).  A command that has read its
range loads settings and reads the file, which leaves the machine as it is; then it asks for
one run on the lines, or for none (`run_attemptRun_of_some`, `run_attemptRun_of_none`).

Main result: a range that names lines is read, and the command that has it formats these
lines, as far as there are any, and leaves every other byte of the file alone
(`ranges_name_lines`).
-/
import LintHost.Proofs.Command.Differences
import LintHost.Proofs.Document.Ranges
import LintHost.Proofs.Document.Selections

namespace LintHost

open Analyzer Storage Text

namespace Command

open Grammar

/-! ### Ranges on the command line -/

section Words

variable {s : String} {r : LineRange} {file : String} {st : State} {words : List String}

/-- The grammar of the command that formats. -/
def formatGrammar : Grammar :=
  leaf [{ name := "lines", kind := .value false checkLines }, flag "diff"] (some fileOperand)

/-- What has to be known of the option that takes a range. -/
def linesTaker : Taker :=
  ⟨"lines", true, false, checkLines⟩

/-- What has to be known of the operand that is the file. -/
def fileTaker : Taker :=
  ⟨"file", false, false, checkPath⟩

/-- There is no command below, so that every word is an argument. -/
theorem readFrom_cons_eq_ok_iff {word : String} {read : Arguments × List (String × Arguments)} :
    formatGrammar.readFrom st (word :: words) = .ok read ↔
      ∃ st', formatGrammar.readWord st word = .ok st' ∧
        formatGrammar.readFrom st' words = .ok read := by
  have hfind : formatGrammar.find? word = none := rfl
  rw [readFrom, hfind, ite_self]
  exact bind_eq_ok_iff

theorem store_lines (h : LineRange.read s = .ok r) :
    store [] linesTaker [s] = .ok [("lines", s)] := by
  have hcheck : checkLines s = none := by rw [checkLines, h]
  simp [store, linesTaker, isGiven, hcheck]

theorem store_file (seen : Arguments) (hfile : file ≠ "") :
    store seen fileTaker [file] = .ok (seen ++ [("file", file)]) := by
  simp [store, fileTaker, checkPath, hfile]

/-- Where reading stands once a range and a file have been read. -/
def fileRead (s file : String) : State where
  seen := [("lines", s)]
  pending := some (fileTaker, [file])
  trailing := true
  operands := 1

/-- Behind a range come the bare `--` and the file. -/
theorem readFrom_file (hfile : file ≠ "") (ht : st.trailing = false)
    (hword : formatGrammar.readWord { st with trailing := true } file = .ok (fileRead s file)) :
    formatGrammar.readFrom st ["--", file] = .ok ([("lines", s), ("file", file)], []) := by
  refine readFrom_cons_eq_ok_iff.2 ⟨{ st with trailing := true }, ?_, ?_⟩
  · rw [readWord, if_neg (by simp [ht])]
    rfl
  refine readFrom_cons_eq_ok_iff.2 ⟨_, hword, ?_⟩
  have hend : conclude formatGrammar (fileRead s file) = .ok [("lines", s), ("file", file)] :=
    bind_eq_ok_iff.2 ⟨_, bind_eq_ok_iff.2 ⟨_, store_file [("lines", s)] hfile, rfl⟩, rfl⟩
  exact bind_eq_ok_iff.2 ⟨_, hend, rfl⟩

/-- A word with the name of an option and a value behind an equals sign. -/
theorem readWord_equals {g : Grammar} {word : String} {name value : List Char}
    (ht : st.trailing = false) (hne : name ≠ []) (hname : '=' ∉ name)
    (hword : word.toList = '-' :: '-' :: (name ++ '=' :: value)) :
    g.readWord st word
      = g.readLong st (String.ofList name) (some (String.ofList value)) := by
  obtain ⟨c, rest, rfl⟩ := List.exists_cons_of_ne_nil hne
  have hsplit : splitFirst? '=' (c :: rest ++ '=' :: value) = some (c :: rest, value) :=
    splitFirst?_eq_some_iff.2 ⟨rfl, hname⟩
  rw [List.cons_append] at hword hsplit
  rw [readWord, if_neg (by simp [ht]), hword]
  simp only [hsplit]

/-- A range may stand behind an equals sign. -/
theorem readFrom_lines_equals (h : LineRange.read s = .ok r) (hfile : file ≠ "") :
    formatGrammar.readFrom {} ["--lines=" ++ s, "--", file]
      = .ok ([("lines", s), ("file", file)], []) := by
  have hword : ("--lines=" ++ s).toList = '-' :: '-' :: ("lines".toList ++ '=' :: s.toList) := by
    rw [String.toList_append]
    rfl
  refine readFrom_cons_eq_ok_iff.2 ⟨{ seen := [("lines", s)] }, ?_, readFrom_file hfile rfl rfl⟩
  rw [readWord_equals rfl (by decide) (by decide) hword, String.ofList_toList, String.ofList_toList]
  exact bind_eq_ok_iff.2 ⟨{}, rfl, bind_eq_ok_iff.2 ⟨_, store_lines h, rfl⟩⟩

/-- A range may be the next word. -/
theorem readFrom_lines_next (h : LineRange.read s = .ok r) (hs : s.toList.head? ≠ some '-')
    (hfile : file ≠ "") :
    formatGrammar.readFrom {} ["--lines", s, "--", file]
      = .ok ([("lines", s), ("file", file)], []) := by
  refine readFrom_cons_eq_ok_iff.2
    ⟨{ pending := some (linesTaker, []), awaiting := true }, rfl, ?_⟩
  refine readFrom_cons_eq_ok_iff.2 ⟨{ pending := some (linesTaker, [s]) }, ?_, ?_⟩
  · rw [readWord, if_neg (by decide)]
    split
    iterate 3
      · next heq => exact absurd (congrArg List.head? heq) hs
    · rfl
  · refine readFrom_file hfile rfl ?_
    have hsettle : settle { pending := some (linesTaker, [s]), trailing := true }
        = .ok { seen := [("lines", s)], trailing := true } :=
      bind_eq_ok_iff.2 ⟨_, store_lines h, rfl⟩
    exact bind_eq_ok_iff.2 ⟨_, hsettle, rfl⟩

/-- What has been read is the command that formats lines of a file. -/
theorem read_of_readFrom (h : LineRange.read s = .ok r)
    (hwords : formatGrammar.readFrom {} words = .ok ([("lines", s), ("file", file)], [])) :
    read ("format" :: words) = .ok
      { verbosity := 0, settingsFile := none, action := .format ⟨file⟩ (some r) false } := by
  have hread : grammar.read ("format" :: words)
      = .ok ([], [("format", [("lines", s), ("file", file)])]) :=
    bind_eq_ok_iff.2 ⟨_, hwords, rfl⟩
  have haction : actionOf ["format"] [("lines", s), ("file", file)]
      = some (.format ⟨file⟩ (some r) false) := by
    show some (Action.format ⟨file⟩ (LineRange.read s).toOption false) = _
    rw [h]
    rfl
  refine bind_eq_ok_iff.2 ⟨_, hread, ?_⟩
  simp only [List.map_cons, List.map_nil, List.getLast?_cons_cons, List.getLast?_singleton,
    Option.getD_some, haction]
  rfl

end Words

/-! ### Formatting by a range -/

variable {σ : Type} {m : Machine σ} {at' : Setting} {c : Command} {file : Path} {r : LineRange}
  {text : String}

/-- Loading settings leaves the machine as it is. -/
theorem run_loadSettings (m : Machine σ) (at' : Setting) (file : Option Path) :
    (m.run (loadSettings at' file).run).2 = m := by
  have hfrom : ∀ file, (m.run (Settings.loadFrom at'.environment file)).2 = m := by
    intro file
    rw [Settings.loadFrom, Machine.run_then, Machine.run_readText]
    dsimp only
    split
    · rfl
    · split <;> rfl
  cases file with
  | some file =>
    show (m.run (attempt _ (Settings.loadFrom at'.environment file)).run).2 = m
    rw [run_attempt]
    exact hfrom file
  | none =>
    show (m.run (attempt _ (Settings.load at'.environment)).run).2 = m
    rw [run_attempt, Settings.load]
    cases Settings.file? at'.environment with
    | none => rfl
    | some file =>
      dsimp only
      rw [Machine.run_then]
      show (Machine.run m (if m.disk.isThere file = true then _ else _)).2 = m
      split
      · exact hfrom file
      · rfl

/-- The document in a file with a text. -/
theorem run_readDocument_of_text
    (h : m.disk.read (Path.absolute at'.directory file) = .ok (encode text.toList)) :
    m.run (readDocument at' file).run
      = (.ok ⟨Path.absolute at'.directory file, text⟩, m) := by
  rw [readDocument, Machine.run_attempt_bind, run_attempt, Machine.run_readText, h]
  dsimp only
  rw [decode?_encode]
  dsimp only [Except.mapError]
  rw [String.ofList_toList]
  rfl

theorem run_writeBack_of_eq (m : Machine σ) {before after : Document}
    (h : after.text = before.text) : m.run (writeBack before after false).run = (.ok {}, m) := by
  rw [writeBack, if_pos h]
  rfl

theorem run_writeBack_of_ne (m : Machine σ) {before after : Document}
    (h : after.text ≠ before.text) :
    m.run (writeBack before after false).run =
      match m.run (replaceText after.path after.text) with
      | (.ok (), m') => (.ok {}, m')
      | (.error fault, m') =>
        (.error (behind ("failed to write " ++ after.path.text) [fault.message]), m') := by
  rw [writeBack, if_neg h]
  show m.run (attempt _ _ >>= _ : Attempt Chain Outcome).run = _
  rw [Machine.run_attempt_bind, run_attempt]
  rcases m.run (replaceText after.path after.text) with ⟨_ | _, m'⟩ <;> rfl

/-- What is left of a command that formats lines, once it has its settings and its document. -/
theorem run_attemptRun_of_lines {settings : Settings} (hc : c.action = .format file (some r) false)
    (hload : (m.run (loadSettings at' c.settingsFile).run).1 = .ok settings)
    (hread : m.disk.read (Path.absolute at'.directory file) = .ok (encode text.toList)) :
    let d : Document := ⟨Path.absolute at'.directory file, text⟩
    m.run (attemptRun at' c).run = m.run (do
      let made ← ExceptT.lift (Plan.consult (d.formatLines settings r))
      match made.1 with
      | .error failure => throw (ofFailure failure)
      | .ok _ => writeBack d made.2 false : Attempt Chain Outcome).run := by
  intro d
  obtain ⟨verbosity, settingsFile, action⟩ := c
  cases hc
  have hload : m.run (loadSettings at' settingsFile).run = (.ok settings, m) :=
    Prod.ext hload (run_loadSettings m at' settingsFile)
  show m.run (loadSettings at' settingsFile >>= fun s => format at' s file (some r) false).run = _
  rw [Machine.run_attempt_bind, hload]
  dsimp only
  rewrite [format, Machine.run_attempt_bind, run_readDocument_of_text hread]
  rfl

/-- A command that formats no line leaves the machine as it is. -/
theorem run_attemptRun_of_none {settings : Settings} (hc : c.action = .format file (some r) false)
    (hload : (m.run (loadSettings at' c.settingsFile).run).1 = .ok settings)
    (hread : m.disk.read (Path.absolute at'.directory file) = .ok (encode text.toList))
    (hnil : (Document.Selection.ofRange r text.toList).lines = []) :
    m.run (attemptRun at' c).run = (.ok {}, m) := by
  have hdone := @Document.formatLines_of_nil r settings
    ⟨Path.absolute at'.directory file, text⟩ hnil
  rw [run_attemptRun_of_lines hc hload hread, hdone, Machine.run_attempt_bind, Machine.run_lift]
  exact run_writeBack_of_eq m rfl

/-- How a command ends that has run the analyzer on some lines: with the failure of the run, without
more ado if the lines are as they should be, or with the output of the run in their place. -/
theorem run_attemptRun_of_some {settings : Settings} {parts : Document.Selection}
    (hc : c.action = .format file (some r) false)
    (hload : (m.run (loadSettings at' c.settingsFile).run).1 = .ok settings)
    (hread : m.disk.read (Path.absolute at'.directory file) = .ok (encode text.toList))
    (hparts : Document.Selection.ofRange r text.toList = parts) (hne : parts.lines ≠ []) :
    let path := Path.absolute at'.directory file
    let d : Document := ⟨path, text⟩
    let call := Invocation.format settings path (String.ofList parts.lines)
    m.run (attemptRun at' c).run = match m.answer (.run call) with
      | (.error failure, m₁) => (.error (ofFailure failure), m₁)
      | (.ok out, m₁) =>
        let text := String.ofList (parts.before ++ out.toList ++ parts.after)
        m₁.run (writeBack d { d with text } false).run := by
  intro path d call
  have hasks := @Document.formatLines_eq r d settings parts hparts hne
  rw [run_attemptRun_of_lines hc hload hread, hasks, Machine.run_attempt_bind, Machine.run_lift]
  dsimp only [Plan.consult, Machine.run]
  rcases m.answer (.run call) with ⟨_ | out, m₁⟩
  · rfl
  · rfl

/-- How a command ends whose run on some lines of a file was answered: with the failure of the run;
as the file is, if the lines are as they should be; or with the output in their place, between the
parts of the text before and after them, unless the file cannot be written. -/
def PutsBack (path : Path) (before lines after : List Char) (m : Machine σ)
    (ended : Outcome × Machine σ) : Reply → Prop
  | .error failure => ended = (failed (ofFailure failure), m)
  | .ok out =>
    let text := String.ofList (before ++ out.toList ++ after)
    if out = String.ofList lines then ended = ({}, m)
    else
      match m.run (replaceText path text) with
      | (.error fault, m') =>
        ended = (failed (behind ("failed to write " ++ path.text) [fault.message]), m')
      | (.ok (), m') => ended = ({}, m') ∧ m'.disk.read path = .ok (encode text.toList)

theorem putsBack_run {settings : Settings} {parts : Document.Selection}
    (hc : c.action = .format file (some r) false)
    (hload : (m.run (loadSettings at' c.settingsFile).run).1 = .ok settings)
    (hread : m.disk.read (Path.absolute at'.directory file) = .ok (encode text.toList))
    (hparts : Document.Selection.ofRange r text.toList = parts) (hne : parts.lines ≠ [])
    (hjoin : parts.before ++ parts.lines ++ parts.after = text.toList) :
    let path := Path.absolute at'.directory file
    let call := Invocation.format settings path (String.ofList parts.lines)
    PutsBack path parts.before parts.lines parts.after (m.answer (.run call)).2
      (m.run (run at' c)) (m.answer (.run call)).1 := by
  intro path call
  have hrun := run_attemptRun_of_some hc hload hread hparts hne
  dsimp only at hrun
  rcases hanswer : m.answer (.run call) with ⟨failure | out, m₁⟩
  · rw [hanswer] at hrun
    exact run_of_error hrun
  · rw [hanswer] at hrun
    dsimp only at hrun
    generalize hdoc : (⟨Path.absolute at'.directory file, text⟩ : Document) = d at hrun
    generalize hnew : String.ofList (parts.before ++ out.toList ++ parts.after) = new at hrun
    have hsame : new = d.text ↔ out = String.ofList parts.lines := by
      rw [← hdoc, ← hnew]
      exact Document.splice_eq_iff hjoin
    dsimp only [PutsBack]
    rw [hnew]
    split
    · next heq =>
      rw [run_writeBack_of_eq m₁ (hsame.2 heq)] at hrun
      exact run_of_ok hrun
    · next hdiffer =>
      rw [run_writeBack_of_ne m₁ (mt hsame.1 hdiffer)] at hrun
      dsimp only at hrun
      rw [show Path.absolute at'.directory file = path from rfl] at hrun
      split
      · next fault m₂ hreplace =>
        rw [hreplace] at hrun
        exact run_of_error hrun
      · next m₂ hreplace =>
        rw [hreplace] at hrun
        have hdone := @Machine.read_replace σ m₁ path (encode new.toList)
        unfold replaceText at hreplace
        rw [hreplace] at hdone
        exact ⟨run_of_ok hrun, hdone rfl⟩

/-- **A range that names lines is read, and formatting by it rewrites these lines only.**  A range
is read exactly if it names two lines, and then it is theirs counted from zero.  It may stand behind
an equals sign or be the next word of a command line.  Take any machine on which the settings can be
loaded and the file holds a text.  If the text ends before the first line that is named, nothing is
asked of the analyzer, and the command leaves the whole machine as it is.  Otherwise it runs the
analyzer on the named lines, as far as there are any, and puts the output in their place; the lines
before and after them stay as they are. -/
theorem ranges_name_lines (s : String) :
    (∀ r, LineRange.read s = .ok r ↔
      ∃ a b, LineRange.Names s a b ∧ r.first + 1 = a ∧ r.last + 1 = b) ∧
    ∀ a b, LineRange.Names s a b →
      (∀ file, file ≠ "" → ∀ words ∈ [["--lines", s], ["--lines=" ++ s]],
        read ("format" :: words ++ ["--", file]) = .ok
          { verbosity := 0, settingsFile := none,
            action := .format ⟨file⟩ (some ⟨a - 1, b - 1⟩) false }) ∧
      ∀ (σ : Type) (m : Machine σ) (at' : Setting) (c : Command) (file : Path)
        (settings : Settings) (text : String),
        c.action = .format file (some ⟨a - 1, b - 1⟩) false →
        (m.run (loadSettings at' c.settingsFile).run).1 = .ok settings →
        m.disk.read (Path.absolute at'.directory file) = .ok (encode text.toList) →
        let path := Path.absolute at'.directory file
        let all := newlineLines text.toList
        let before := (all.take (a - 1)).flatten
        let lines := (all.extract (a - 1) (min b all.length)).flatten
        let after := (all.drop (min b all.length)).flatten
        let call := Invocation.format settings path (String.ofList lines)
        (all.length < a →
          Document.formatLines settings ⟨a - 1, b - 1⟩ ⟨path, text⟩
            = .done (.ok false, ⟨path, text⟩) ∧
          m.run (run at' c) = ({}, m)) ∧
        (a ≤ all.length →
          before ++ lines ++ after = text.toList ∧ call.input = some (String.ofList lines) ∧
          (m.answer (.run call)).2.disk = m.disk ∧
          PutsBack path before lines after (m.answer (.run call)).2 (m.run (run at' c))
            (m.answer (.run call)).1) := by
  refine ⟨fun r => LineRange.read_eq_ok_iff, fun a b h => ?_⟩
  obtain ⟨hpos, hle⟩ := h.bounds
  have hrange : LineRange.read s = .ok ⟨a - 1, b - 1⟩ :=
    LineRange.read_eq_ok_iff.2
      ⟨a, b, h, Nat.sub_add_cancel hpos, Nat.sub_add_cancel (Nat.le_trans hpos hle)⟩
  constructor
  · intro file hfile words hwords
    rcases List.mem_pair.1 hwords with rfl | rfl
    · exact read_of_readFrom hrange (readFrom_lines_next hrange h.head?_ne hfile)
    · exact read_of_readFrom hrange (readFrom_lines_equals hrange hfile)
  · intro σ m at' c file settings text hc hload hread path all before lines after call
    constructor
    · intro hlt
      have hbehind : (newlineLines text.toList).length ≤ a - 1 := Nat.le_sub_one_of_lt hlt
      have hnil := (@Document.lines_ofRange_eq_nil_iff ⟨a - 1, b - 1⟩ _).2 (.inl hbehind)
      exact ⟨Document.formatLines_of_nil hnil,
        run_of_ok (run_attemptRun_of_none hc hload hread hnil)⟩
    · intro hlen
      obtain ⟨hparts, hne, hjoin⟩ := Document.ofRange_pred hpos hle hlen
      refine ⟨hjoin, rfl, m.disk_answer_run call, ?_⟩
      have hputs := putsBack_run hc hload hread hparts hne hjoin
      dsimp only at hputs
      exact hputs

/-- The first two of three lines, and two lines behind the last. -/
theorem ranges_name_lines_of_three :
    let m := rewriter "x\ny\nz\n" "w\n"
    let path := Path.absolute bareSetting.directory ⟨"a.py"⟩
    let ended := m.run (run bareSetting ⟨0, none, .format ⟨"a.py"⟩ (some ⟨0, 1⟩) false⟩)
    read ["format", "--lines", " +1:2", "--", "a.py"]
        = .ok ⟨0, none, .format ⟨"a.py"⟩ (some ⟨0, 1⟩) false⟩ ∧
      ended.1 = {} ∧ ended.2.disk.read path = .ok (encode "w\nz\n".toList) ∧
      m.run (run bareSetting ⟨0, none, .format ⟨"a.py"⟩ (some ⟨3, 4⟩) false⟩) = ({}, m) := by
  intro m path ended
  have hfirst : LineRange.Names " +1:2" 1 2 :=
    ⟨[' ', '+', '1'], ['2'], rfl, by decide, LineRange.number?_eq_some_iff.1 (by decide),
      LineRange.number?_eq_some_iff.1 (by decide), by decide⟩
  have hlast : LineRange.Names "4:5" 4 5 :=
    ⟨['4'], ['5'], rfl, by decide, LineRange.number?_eq_some_iff.1 (by decide),
      LineRange.number?_eq_some_iff.1 (by decide), by decide⟩
  have hread : m.disk.read path = .ok (encode "x\ny\nz\n".toList) := by decide +kernel
  obtain ⟨hwords, hrun⟩ := (ranges_name_lines " +1:2").2 1 2 hfirst
  obtain ⟨-, -, -, hputs⟩ := (hrun Unit m bareSetting
    ⟨0, none, .format ⟨"a.py"⟩ (some ⟨0, 1⟩) false⟩ ⟨"a.py"⟩ {} _ rfl rfl hread).2
    (by decide +kernel)
  obtain ⟨-, hbehind⟩ := (ranges_name_lines "4:5").2 4 5 hlast
  have hended : ended.1 = {} ∧ ended.2.disk.read path = .ok (encode "w\nz\n".toList) := by
    have hanswer : (m.answer (.run (.format {} path "x\ny\n"))).1 = .ok "w\n" := by
      decide +kernel
    change PutsBack _ _ _ _ _ ended (m.answer (.run (.format {} path "x\ny\n"))).1 at hputs
    rw [hanswer] at hputs
    dsimp only [PutsBack] at hputs
    rw [if_neg (by decide)] at hputs
    split at hputs
    · next fault after hreplace =>
      have hok : _ = false := congrArg (fun result => result.1.isOk) hreplace
      exact absurd hok (by decide +kernel)
    · rw [hputs.1]
      exact ⟨rfl, hputs.2⟩
  exact ⟨hwords "a.py" (by decide) _ List.mem_cons_self, hended.1, hended.2,
    ((hbehind Unit m bareSetting _ ⟨"a.py"⟩ {} _ rfl rfl hread).1 (by decide +kernel)).2⟩

end Command

end LintHost
