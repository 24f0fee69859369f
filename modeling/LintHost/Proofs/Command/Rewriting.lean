/-
LintHost/Proofs/Command/Rewriting.lean

Commands that rewrite a file, where anything may go wrong (`rewriting_all_or_nothing`).
Fixing and formatting load the settings, read the file and ask the analyzer, and all of
this only looks at the disk (`runs_rewriting`).  What they write then is all or nothing,
and a file whose text does not change holds the bytes of that text already.
-/
import LintHost.Command.Run
import LintHost.Proofs.Document.Selections
import LintHost.Proofs.Settings.Rewriting
import LintHost.Proofs.Text.Decoding

namespace LintHost

open Analyzer Storage Storage.Disk
open Settings (lonePath loneFile)

variable {α β ε : Type} {w : World} {d e : Disk} {log : List Stage}

namespace World

theorem consult_bind (w : World) (d : Disk) (c : Consult α) (f : α → Consult β) :
    w.consult d (c >>= f) = w.consult d (f (w.consult d c)) := by
  show (Consult.run _ _ (c.bind f)).1 = _
  rw [Consult.run_bind]
  rfl

end World

/-! ### Commands that rewrite -/

/-- The file that an action rewrites, and whether it only shows what would change. -/
def Action.rewrites? : Action → Option (Path × Bool)
  | .fix file diff => some (file, diff)
  | .format file _ diff => some (file, diff)
  | _ => none

namespace Document

/-- The document that a rewriting action makes of one, if the analyzer does not fail. -/
def rewritten? (w : World) (disk : Disk) (s : Settings) (d : Document) :
    Action → Option Document
  | .fix _ _ =>
    (w.consult disk (d.fixedText s)).toOption.map fun text => { d with text := text.getD d.text }
  | .format _ lines _ =>
    let (result, after) := w.consult disk <|
      match lines with
      | some r => d.formatLines s r
      | none => d.format s
    result.toOption.map fun _ => after
  | _ => none

theorem path_format (w : World) (disk : Disk) (s : Settings) (d : Document) :
    (w.consult disk (d.format s)).2.path = d.path := by
  unfold format
  rw [World.consult_bind]
  cases w.consult disk (formatted s d.path d.text) <;> rfl

theorem path_formatLines (w : World) (disk : Disk) (s : Settings) (r : LineRange)
    (d : Document) : (w.consult disk (d.formatLines s r)).2.path = d.path := by
  by_cases h : (Selection.ofRange r d.text.toList).lines = []
  · rw [formatLines_of_nil h]
    rfl
  · rw [World.consult, run_formatLines _ _ s rfl h]
    dsimp only
    split <;> rfl

/-- A document that is rewritten stays where it is. -/
theorem path_rewritten? {disk : Disk} {s : Settings} {before after : Document} {action : Action}
    (h : before.rewritten? w disk s action = some after) : after.path = before.path := by
  unfold rewritten? at h
  split at h
  · obtain ⟨text, -, rfl⟩ := Option.map_eq_some_iff.1 h
    rfl
  · next _ lines _ =>
    obtain ⟨_, -, rfl⟩ := Option.map_eq_some_iff.1 h
    cases lines with
    | some r => exact path_formatLines w disk s r before
    | none => exact path_format w disk s before
  · cases h

end Document

namespace Command

variable {at' : Setting} {r : Except Chain α} {before after : Document}

/-! ### Looking -/

theorem runs_attempt_iff {tell : ε → Chain} {p : Plan (Except ε α)} :
    Runs w (attempt tell p).run d log r e ↔ ∃ a, Runs w p d log a e ∧ r = a.mapError tell :=
  runs_map_iff

theorem isStill_attempt {tell : ε → Chain} {p : Plan (Except ε α)} (hp : p.IsStill) :
    (attempt tell p).run.IsStill :=
  Plan.IsStill.bind hp fun _ => trivial

theorem isStill_loadSettings (at' : Setting) (file : Option Path) :
    (loadSettings at' file).run.IsStill := by
  refine isStill_attempt ?_
  split
  · exact Settings.isStill_loadFrom _ _
  · exact Settings.isStill_load _

theorem isStill_readDocument (at' : Setting) (file : Path) :
    (readDocument at' file).run.IsStill := by
  refine Plan.IsStill.bind (isStill_attempt (isStill_readText _)) fun text => ?_
  cases text <;> trivial

/-- A plan that cannot fail, among those that may. -/
theorem runs_lift_iff {p : Plan α} :
    Runs w (ExceptT.lift p : Attempt Chain α).run d log r e ↔
      ∃ a, Runs w p d log a e ∧ r = .ok a :=
  runs_map_iff

theorem isStill_lift {p : Plan α} (hp : p.IsStill) :
    (ExceptT.lift p : Attempt Chain α).run.IsStill :=
  Plan.IsStill.bind hp fun _ => trivial

theorem isStill_asking (c : Consult (Except Failure α)) : (asking c).run.IsStill :=
  isStill_attempt (isStill_consult c)

/-- A document that was read has the absolute path of its file, and its text is what the bytes
there spell. -/
theorem runs_readDocument {file : Path}
    (h : Runs w (readDocument at' file).run d log (.ok before) e) :
    before.path = Path.absolute at'.directory file ∧
      ∃ bytes, d.read before.path = .ok bytes ∧ Text.decode? bytes = some before.text.toList := by
  rcases runs_attempt_bind_iff.1 h with ⟨_, hno, -⟩ | ⟨reading, _, text, mid, rfl, hread, h⟩
  · cases hno
  · obtain ⟨-, hbefore, -⟩ := h
    obtain rfl := Except.ok.inj hbefore
    obtain ⟨a, hread, ha⟩ := runs_attempt_iff.1 hread
    cases a with
    | error fault => cases ha
    | ok text' =>
      obtain rfl := Except.ok.inj ha
      exact ⟨rfl, runs_readText hread⟩

/-- An attempt that only looks, and what is done with its result. -/
theorem runs_still_bind {x : Attempt Chain α} {f : α → Attempt Chain β} {r : Except Chain β}
    (hx : x.run.IsStill) (h : Runs w (x >>= f).run d log r e) :
    (∃ chain, r = .error chain ∧ e = d ∧ ∀ y, Seen log y → y = d) ∨
      ∃ looking rest a, log = looking ++ rest ∧ (∀ y, Seen looking y → y = d) ∧
        Runs w x.run d looking (.ok a) d ∧ Runs w (f a).run d rest r e := by
  rcases runs_attempt_bind_iff.1 h with ⟨chain, rfl, hx'⟩ | ⟨looking, rest, a, mid, rfl, hx', hf⟩
  · exact .inl ⟨chain, rfl, hx'.of_isStill hx⟩
  · obtain ⟨rfl, hseen⟩ := hx'.of_isStill hx
    exact .inr ⟨looking, rest, a, rfl, hseen, hx', hf⟩

/-! ### Writing back -/

/-- A file whose bytes spell a text holds the bytes of the text. -/
theorem replaced_self {path : Path} {bytes : List UInt8} {text : String}
    (hread : d.read path = .ok bytes) (hd : Text.decode? bytes = some text.toList) :
    Replaced path d log (Text.encode text.toList) d := by
  obtain ⟨q, mode, hfile⟩ := read_eq_ok_iff.1 hread
  obtain ⟨hfind, hg⟩ := findFile_eq_ok_iff.1 hfile
  rw [Text.encode_of_decode? hd]
  refine ⟨q, mode, hfind, hfind, hg, fun _ _ => rfl, fun old kept hold _ => ?_⟩
  rw [hg] at hold
  cases hold
  rfl

/-- To show what would change only looks. -/
theorem isStill_writeBack (before after : Document) :
    (writeBack before after true).run.IsStill := by
  unfold writeBack
  split <;> trivial

/-- Writing a document back is all or nothing. -/
theorem runs_writeBack {r : Except Chain Outcome} (hw : w.target = before.path)
    (hpath : after.path = before.path) {bytes : List UInt8}
    (hread : d.read before.path = .ok bytes) (hd : Text.decode? bytes = some before.text.toList)
    (h : Runs w (writeBack before after false).run d log r e) :
    AllOrNothing before.path d log r (fun _ new => new = Text.encode after.text.toList) e := by
  unfold writeBack at h
  split at h
  · next hsame =>
    -- nothing is written, and the file holds the bytes of the text as it is
    obtain ⟨rfl, rfl, rfl⟩ := h
    refine ⟨fun y hy => (not_seen_nil hy).elim, nofun, fun _ _ => ⟨_, rfl, ?_⟩⟩
    rw [hsame]
    exact replaced_self hread hd
  · rw [← hpath] at hw ⊢
    change Runs w (attempt _ _ >>= _ : Attempt Chain Outcome).run d log r e at h
    rcases runs_attempt_bind_iff.1 h with ⟨_, rfl, hwrite⟩ | ⟨_, _, _, mid, rfl, hwrite, hend⟩
    · obtain ⟨a, hreplace, ha⟩ := runs_attempt_iff.1 hwrite
      have hwhole := runs_replace hw hreplace
      cases a with
      | error fault => exact ⟨hwhole.seen, fun _ _ => hwhole.nothing fault rfl, nofun⟩
      | ok => cases ha
    · obtain ⟨rfl, rfl, rfl⟩ := hend
      rw [List.append_nil]
      obtain ⟨a, hreplace, ha⟩ := runs_attempt_iff.1 hwrite
      have hwhole := runs_replace hw hreplace
      cases a with
      | error fault => cases ha
      | ok => exact ⟨hwhole.seen, nofun, fun _ _ => hwhole.all () rfl⟩

/-! ### Fixing and formatting -/

/-- Whether a run has only looked and failed, or goes on to write back what an action makes of the
document in a file. -/
def LooksFirst (w : World) (at' : Setting) (s : Settings) (action : Action) (file : Path)
    (diff : Bool) (d : Disk) (log : List Stage) (r : Except Chain Outcome) (e : Disk) : Prop :=
  (∃ chain, r = .error chain ∧ e = d ∧ ∀ y, Seen log y → y = d) ∨
    ∃ reading asking rest before after, log = reading ++ (asking ++ rest) ∧
      (∀ y, Seen reading y → y = d) ∧ (∀ y, Seen asking y → y = d) ∧
      Runs w (readDocument at' file).run d reading (.ok before) d ∧
      before.rewritten? w d s action = some after ∧
      Runs w (writeBack before after diff).run d rest r e

variable {s : Settings} {file : Path} {diff : Bool}

theorem runs_fix {r : Except Chain Outcome} (h : Runs w (fix at' s file diff).run d log r e) :
    LooksFirst w at' s (.fix file diff) file diff d log r e := by
  rcases runs_still_bind (isStill_readDocument at' file) h with
    hfail | ⟨reading, rest, before, rfl, hreading, hread, h⟩
  · exact .inl hfail
  rcases runs_still_bind (isStill_asking _) h with
    ⟨chain, rfl, rfl, hrest⟩ | ⟨asking, rest, text, rfl, hasking, hask, h⟩
  · exact .inl ⟨chain, rfl, rfl, forall_seen_append.2 ⟨hreading, hrest⟩⟩
  · obtain ⟨answer, hask, hanswer⟩ := runs_attempt_iff.1 hask
    refine .inr ⟨reading, asking, rest, before, _, rfl, hreading, hasking, hread, ?_, h⟩
    have hconsult := runs_consult hask
    cases answer with
    | error failure => cases hanswer
    | ok text' =>
      obtain rfl := Except.ok.inj hanswer
      exact congrArg (fun answer => answer.toOption.map fun text : Option String =>
        { before with text := text.getD before.text }) hconsult.symm

theorem runs_format {lines : Option LineRange} {r : Except Chain Outcome}
    (h : Runs w (format at' s file lines diff).run d log r e) :
    LooksFirst w at' s (.format file lines diff) file diff d log r e := by
  rcases runs_still_bind (isStill_readDocument at' file) h with
    hfail | ⟨reading, rest, before, rfl, hreading, hread, h⟩
  · exact .inl hfail
  rcases runs_still_bind (isStill_lift (isStill_consult _)) h with
    ⟨chain, rfl, rfl, hrest⟩ | ⟨asking, rest, ⟨result, after⟩, rfl, hasking, hask, h⟩
  · exact .inl ⟨chain, rfl, rfl, forall_seen_append.2 ⟨hreading, hrest⟩⟩
  · obtain ⟨answer, hask, hanswer⟩ := runs_lift_iff.1 hask
    obtain rfl := Except.ok.inj hanswer
    have hconsult := runs_consult hask
    -- here the analyzer's failure is a result, and becomes one of the command only now
    cases result with
    | error failure =>
      obtain ⟨rfl, rfl, rfl⟩ := h
      rw [List.append_nil]
      exact .inl ⟨_, rfl, rfl, forall_seen_append.2 ⟨hreading, hasking⟩⟩
    | ok changed =>
      refine .inr ⟨reading, asking, rest, before, after, rfl, hreading, hasking, hread, ?_, h⟩
      exact congrArg (fun answer => answer.1.toOption.map fun _ => answer.2) hconsult.symm

/-- A command that rewrites a file only looks before it writes. -/
theorem runs_rewriting {c : Command} {r : Except Chain Outcome}
    (hc : c.action.rewrites? = some (file, diff)) (h : Runs w (attemptRun at' c).run d log r e) :
    (∃ chain, r = .error chain ∧ e = d ∧ ∀ y, Seen log y → y = d) ∨
      ∃ loading rest s, log = loading ++ rest ∧ (∀ y, Seen loading y → y = d) ∧
        Runs w (loadSettings at' c.settingsFile).run d loading (.ok s) d ∧
        LooksFirst w at' s c.action file diff d rest r e := by
  obtain ⟨verbosity, settingsFile, action⟩ := c
  cases action with
  | fix file' diff' =>
    cases hc
    rcases runs_still_bind (isStill_loadSettings at' settingsFile) h with
      hfail | ⟨loading, rest, s, rfl, hloading, hload, h⟩
    · exact .inl hfail
    · exact .inr ⟨loading, rest, s, rfl, hloading, hload, runs_fix h⟩
  | format file' lines diff' =>
    cases hc
    rcases runs_still_bind (isStill_loadSettings at' settingsFile) h with
      hfail | ⟨loading, rest, s, rfl, hloading, hload, h⟩
    · exact .inl hfail
    · exact .inr ⟨loading, rest, s, rfl, hloading, hload, runs_format h⟩
  | _ => cases hc

/-- Whether a content is what a command makes of the document that a run has read in a file, under
the settings that it has loaded before. -/
def Made (w : World) (at' : Setting) (c : Command) (file : Path) (d : Disk) (log : List Stage)
    (content : List UInt8) : Prop :=
  ∃ loading reading rest s before after, log = loading ++ (reading ++ rest) ∧
    Runs w (loadSettings at' c.settingsFile).run d loading (.ok s) d ∧
    Runs w (readDocument at' file).run d reading (.ok before) d ∧
    before.rewritten? w d s c.action = some after ∧ content = Text.encode after.text.toList

/-- To show what would change leaves the disk alone. -/
theorem runs_rewriting_diff {c : Command} {r : Except Chain Outcome}
    (hc : c.action.rewrites? = some (file, true)) (h : Runs w (attemptRun at' c).run d log r e) :
    e = d ∧ ∀ y, Seen log y → y = d := by
  rcases runs_rewriting hc h with ⟨chain, -, hend⟩ | ⟨loading, rest, s, rfl, hloading, -, h⟩
  · exact hend
  rcases h with
    ⟨chain, -, rfl, hrest⟩ | ⟨reading, asking, rest, _, _, rfl, hreading, hasking, -, -, h⟩
  · exact ⟨rfl, forall_seen_append.2 ⟨hloading, hrest⟩⟩
  · obtain ⟨rfl, hrest⟩ := h.of_isStill (isStill_writeBack _ _)
    have hasked := forall_seen_append.2 ⟨hasking, hrest⟩
    exact ⟨rfl, forall_seen_append.2 ⟨hloading, forall_seen_append.2 ⟨hreading, hasked⟩⟩⟩

/-- To rewrite a file is all or nothing. -/
theorem runs_rewriting_whole {c : Command} {r : Except Chain Outcome}
    (hc : c.action.rewrites? = some (file, false))
    (hw : w.target = Path.absolute at'.directory file)
    (h : Runs w (attemptRun at' c).run d log r e) :
    AllOrNothing w.target d log r (fun _ content => Made w at' c file d log content) e := by
  rcases runs_rewriting hc h with
    ⟨chain, rfl, rfl, hseen⟩ | ⟨loading, rest, s, rfl, hloading, hload, h⟩
  · rw [← List.append_nil log]
    exact (AllOrNothing.of_error _ _ _).of_append hseen
  refine AllOrNothing.of_append ?_ hloading
  rcases h with
    ⟨chain, rfl, rfl, hseen⟩ |
    ⟨reading, asking, rest, before, after, rfl, hreading, hasking, hread, hr, h⟩
  · rw [← List.append_nil rest]
    exact (AllOrNothing.of_error _ _ _).of_append hseen
  refine AllOrNothing.of_append (AllOrNothing.of_append ?_ hasking) hreading
  obtain ⟨hpath, bytes, hbytes, hd⟩ := runs_readDocument hread
  have hw : w.target = before.path := hw.trans hpath.symm
  have hwhole := runs_writeBack hw (Document.path_rewritten? hr) hbytes hd h
  rw [← hw] at hwhole
  refine ⟨hwhole.seen, hwhole.nothing, fun outcome ho => ?_⟩
  obtain ⟨content, rfl, hreplaced⟩ := hwhole.all outcome ho
  exact ⟨_, ⟨loading, reading, _, s, before, after, rfl, hload, hread, hr, rfl⟩, hreplaced⟩

/-- **Files are rewritten as a whole or not at all**, wherever a run goes wrong.  Toggling makes
the directories above the file before, which brings no file into sight unless the path goes back;
fixing and formatting only look before, and to show what would change is all that they do then. -/
theorem rewriting_all_or_nothing (w : World) (d : Disk) :
    (∀ switch log r e, Runs w (Settings.toggleIn w.target switch) d log r e →
      ∃ before after made d₁, log = before ++ after ∧
        Runs w (Settings.makeParent w.target) d before made d₁ ∧
        Settings.DirectoriesMade w.target d before d₁ ∧
        (d.IsTree → [Path.dot, Path.dot] ∉ Text.splitOn Path.separator w.target.raw.bytes →
          ∀ x, Seen before x ∨ x = d₁ → ∀ content mode,
            x.at? w.target = some (.file content mode) ↔
              d.at? w.target = some (.file content mode)) ∧
        AllOrNothing w.target d₁ after r (Settings.Turned w w.target switch d₁ after) e) ∧
      ∀ at' c file diff log r e, c.action.rewrites? = some (file, diff) →
        w.target = Path.absolute at'.directory file → Runs w (attemptRun at' c).run d log r e →
        (diff = true → e = d ∧ ∀ y, Seen log y → y = d) ∧
        (diff = false →
          AllOrNothing w.target d log r (fun _ content => Made w at' c file d log content) e) := by
  constructor
  · intro switch log r e h
    obtain ⟨before, after, made, d₁, hlog, hmade, hwhole⟩ := Settings.runs_toggleIn rfl h
    have hdirectories := Settings.runs_makeParent hmade
    refine ⟨before, after, made, d₁, hlog, hmade, hdirectories, ?_, hwhole⟩
    intro ht hup x hx content mode
    exact hdirectories.file_iff ht hup hx
  · intro at' c file diff log r e hc hw h
    constructor
    · rintro rfl
      exact runs_rewriting_diff hc h
    · rintro rfl
      exact runs_rewriting_whole hc hw h

/-! ### A disk with one file -/

/-- A world whose analyzer makes the same of every text. -/
def loneWorld : World where
  analyzer _ _ := .ok "y\n"
  target := lonePath

/-- A setting without environment. -/
def bareSetting : Setting where
  environment := { values := [] }
  directory := ⟨"/"⟩

/-- The command that formats the one file. -/
def formatLone : Command where
  verbosity := 0
  settingsFile := none
  action := .format lonePath none false

theorem find_lonePath (s : List Char) : (loneFile s).disk.find lonePath = .ok ["c.toml"] := rfl

/-- A toggle of the one file may find its place taken when the new text is there already. -/
theorem exists_runs_toggleIn_lone :
    ∃ log e, Runs loneWorld (Settings.toggleIn lonePath .enabled) (loneFile []).disk log
      (.error (.write lonePath .busy)) e := by
  obtain ⟨edited, htoggle, -⟩ := Settings.toggle?_of_read?
    (Settings.read?_nil { values := [] }) Settings.editable_nil .enabled
  have hd : Text.decode? [] = some [] := Text.decode?_encode []
  have hfree : (loneFile []).disk.find lonePath ≠ .ok [".tmp0"] := by
    rw [find_lonePath]
    decide
  -- the directory, whether the file is there, and its text
  refine exists_runs_ask (r := .makeDirectories ⟨"/"⟩) (a := .ok ()) (.inl rfl) ?_
  refine exists_runs_ask (r := .isThere _) (a := true) ⟨.inl rfl, rfl⟩ ?_
  refine exists_runs_ask (r := .read _) (a := .ok []) ⟨.inl rfl, rfl⟩ ?_
  dsimp only [Plan.bind]
  rw [hd]
  dsimp only [pure, Plan.bind]
  rw [String.toList_ofList, htoggle]
  -- the new file, up to the renaming that is refused
  refine exists_runs_ask (r := .makeTemporary _) (a := .ok ⟨"/.tmp0"⟩)
    (.inl ⟨_, _, rfl, rfl, rfl, hfree, rfl⟩) ?_
  refine exists_runs_ask (r := .write _ _) (a := .ok ()) (.inl rfl) ?_
  refine exists_runs_ask (r := .permissions _) (a := .ok 0o644) ⟨.inl rfl, rfl⟩ ?_
  refine exists_runs_ask (r := .setPermissions _ _) (a := .ok ()) (.inl rfl) ?_
  refine exists_runs_ask (r := .rename _ _) (a := .error .busy) (.inr ⟨⟨_, rfl⟩, rfl⟩) ?_
  refine exists_runs_ask (r := .remove _) (a := ()) rfl ?_
  exact exists_runs_done _

/-- The one file may be formatted. -/
theorem exists_runs_formatLone :
    ∃ log e, Runs loneWorld (attemptRun bareSetting formatLone).run (loneFile ['x']).disk log
      (.ok {}) e := by
  have hd : Text.decode? [0x78] = some ['x'] := Text.decode?_encode ['x']
  have habsolute : Path.absolute bareSetting.directory lonePath = lonePath := by decide
  have hfree : (loneFile ['x']).disk.find lonePath ≠ .ok [".tmp0"] := by
    rw [find_lonePath]
    decide
  refine exists_runs_ask (r := .read _) (a := .ok [0x78]) ⟨.inl (by rw [habsolute]; rfl), rfl⟩ ?_
  rw [habsolute]
  dsimp only [Plan.bind]
  rw [hd]
  refine exists_runs_ask (r := .run _) (a := .ok "y\n") ⟨rfl, rfl⟩ ?_
  refine exists_runs_ask (r := .makeTemporary _) (a := .ok ⟨"/.tmp0"⟩)
    (.inl ⟨_, _, rfl, rfl, rfl, hfree, rfl⟩) ?_
  refine exists_runs_ask (r := .write _ _) (a := .ok ()) (.inl rfl) ?_
  refine exists_runs_ask (r := .permissions _) (a := .ok 0o644) ⟨.inl rfl, rfl⟩ ?_
  refine exists_runs_ask (r := .setPermissions _ _) (a := .ok ()) (.inl rfl) ?_
  refine exists_runs_ask (r := .rename _ _) (a := .ok ()) (.inl rfl) ?_
  exact exists_runs_done _

/-- A toggle of the one file that is refused at its last step leaves the file as it was, and
formatting the file puts what the analyzer has made of it in its place. -/
theorem rewriting_all_or_nothing_lone :
    (∃ log e, Runs loneWorld (Settings.toggleIn lonePath .enabled) (loneFile []).disk log
        (.error (.write lonePath .busy)) e ∧ e.at? lonePath = some (.file [] 0o644)) ∧
      ∃ log e content, Runs loneWorld (attemptRun bareSetting formatLone).run
          (loneFile ['x']).disk log (.ok {}) e ∧
        Made loneWorld bareSetting formatLone lonePath (loneFile ['x']).disk log content ∧
        Replaced lonePath (loneFile ['x']).disk log content e := by
  constructor
  · obtain ⟨log, e, h⟩ := exists_runs_toggleIn_lone
    obtain ⟨_, _, _, d₁, -, -, hdirectories, -, hwhole⟩ :=
      (rewriting_all_or_nothing loneWorld _).1 .enabled log _ e h
    obtain rfl : d₁ = (loneFile []).disk :=
      hdirectories.followed _ (find_lonePath []) d₁ (.inr rfl)
    exact ⟨log, e, h, (hwhole.nothing _ rfl).at? lonePath⟩
  · obtain ⟨log, e, h⟩ := exists_runs_formatLone
    have hwhole := ((rewriting_all_or_nothing loneWorld _).2 bareSetting formatLone lonePath false
      log _ e rfl (by decide) h).2 rfl
    obtain ⟨content, hcontent, hreplaced⟩ := hwhole.all {} rfl
    exact ⟨log, e, content, h, hcontent, hreplaced⟩

end Command

end LintHost
