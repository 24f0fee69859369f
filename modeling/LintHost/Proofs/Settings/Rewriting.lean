/-
LintHost/Proofs/Settings/Rewriting.lean

A toggle where anything may go wrong (`runs_toggleIn`).  It makes the directories above
the file first, and these stay.  From then on it is all or nothing.

For a path that could be followed before, no directory is made.  For one that goes back
out of a missing directory the first step may bring a file into sight, whatever becomes
of the toggle after that (`toggle_shows_file`).
-/
import LintHost.Proofs.Settings.Toggling
import LintHost.Proofs.Storage.Directories

namespace LintHost

open Analyzer Storage Storage.Disk

variable {w : World} {d e x : Disk} {log : List Stage} {path directory : Path} {p : Place}

/-! ### Reading -/

theorem isStill_readText (file : Path) : (readText file).IsStill := by
  refine Plan.IsStill.bind ⟨trivial, fun _ => trivial⟩ fun bytes => ?_
  cases bytes with
  | error fault => trivial
  | ok bytes =>
    dsimp only
    split <;> trivial

/-- A text that was read is what the bytes of the file spell. -/
theorem runs_readText {text : String} (h : Runs w (readText path) d log (.ok text) e) :
    ∃ bytes, d.read path = .ok bytes ∧ Text.decode? bytes = some text.toList := by
  obtain ⟨answer, _, rest, rfl, ⟨ha, rfl⟩, h⟩ := h
  cases answer with
  | error fault => cases h.2.1
  | ok bytes =>
    refine ⟨bytes, ?_, ?_⟩
    · rcases ha with ha | ⟨fault, hno⟩
      · exact ha.symm
      · cases hno
    · dsimp only [Plan.bind] at h
      rcases hd : Text.decode? bytes with - | s
      · rw [hd] at h
        cases h.2.1
      · rw [hd] at h
        have htext : text = String.ofList s := Except.ok.inj h.2.1
        rw [htext, String.toList_ofList]

namespace Settings

theorem isStill_currentText (file : Path) : (currentText file).IsStill := by
  refine Plan.IsStill.bind ⟨trivial, fun _ => trivial⟩ fun there => ?_
  split
  · exact isStill_readText file
  · trivial

theorem isStill_loadFrom (env : Environment) (file : Path) : (loadFrom env file).IsStill := by
  refine (isStill_readText file).bind fun text => ?_
  cases text with
  | error fault => trivial
  | ok text =>
    dsimp only
    split <;> trivial

theorem isStill_load (env : Environment) : (load env).IsStill := by
  unfold load
  split
  · trivial
  · refine Plan.IsStill.bind ⟨trivial, fun _ => trivial⟩ fun there => ?_
    split
    · exact isStill_loadFrom env _
    · trivial

/-! ### Making the directories -/

/-- Where the making of directories ends is one of the disks on its way. -/
theorem during_makeDirectories (d : Disk) (directory : Path) :
    During d (.makeDirectories directory) (d.makeDirectories directory).2 := by
  unfold makeDirectories
  rcases hs : segments directory with fault | along
  · exact .inl rfl
  · refine .inr ⟨along, along.length, hs, ?_⟩
    rw [List.take_length]

theorem grown_of_during (h : During d (.makeDirectories directory) x) : Grown d x := by
  rcases h with rfl | ⟨along, k, -, rfl⟩
  · exact .refl x
  · exact grown_makeAlong d _ _

theorem eq_of_during (hd : path.directory? = some directory) (hp : d.find path = .ok p)
    (h : During d (.makeDirectories directory) x) : x = d := by
  rcases h with rfl | ⟨along, k, hs, rfl⟩
  · rfl
  · rw [makeAlong_of_find hp hd hs k]

/-- What becomes of a disk while the directories above a path are made. -/
structure DirectoriesMade (path : Path) (d : Disk) (log : List Stage) (e : Disk) : Prop where
  grown : ∀ x, Seen log x ∨ x = e → Grown d x
  /-- A path that can be followed has all its directories. -/
  followed : ∀ p, d.find path = .ok p → ∀ x, Seen log x ∨ x = e → x = d

theorem runs_makeParent {r : Except Fault Unit} (h : Runs w (makeParent path) d log r e) :
    DirectoriesMade path d log e := by
  unfold makeParent at h
  split at h
  · obtain ⟨rfl, -, rfl⟩ := h
    have same (x : Disk) : Seen [] x ∨ x = e → x = e := fun hx => hx.resolve_left not_seen_nil
    refine ⟨fun x hx => ?_, fun _ _ => same⟩
    obtain rfl := same x hx
    exact .refl x
  · next directory hd =>
    obtain ⟨answer, _, rest, rfl, ha, rfl, rfl, rfl⟩ := h
    -- refused or not, it ends where it may also stop
    have hend : During d (.makeDirectories directory) e := by
      rcases ha with hregular | ⟨-, he⟩
      · obtain rfl : e = (d.makeDirectories directory).2 := congrArg Prod.snd hregular
        exact during_makeDirectories d directory
      · exact he
    have during (x : Disk) (hx : Seen [⟨d, .makeDirectories directory, r⟩] x ∨ x = e) :
        During d (.makeDirectories directory) x := by
      rcases hx with hx | rfl
      · exact seen_singleton.1 hx
      · exact hend
    exact ⟨fun x hx => grown_of_during (during x hx),
      fun p hp x hx => eq_of_during hd hp (during x hx)⟩

/-- On the way to the directories of a path that does not go back, it leads to the files that it
led to before. -/
theorem DirectoriesMade.file_iff (h : DirectoriesMade path d log e) (ht : d.IsTree)
    (hup : [Path.dot, Path.dot] ∉ Text.splitOn Path.separator path.raw.bytes) {content : List UInt8} {mode : Nat}
    (hx : Seen log x ∨ x = e) :
    x.at? path = some (.file content mode) ↔ d.at? path = some (.file content mode) :=
  (h.grown x hx).file_iff ht hup

/-! ### Toggling -/

/-- Whether a content is the text that a run has begun with reading in a file, with a switch turned
over to a position. -/
def Turned (w : World) (path : Path) (switch : Switch) (d : Disk) (log : List Stage) (on : Bool)
    (content : List UInt8) : Prop :=
  ∃ reading rest text edited, log = reading ++ rest ∧
    Runs w (currentText path) d reading (.ok text) d ∧
    toggle? switch text.toList = some (on, edited) ∧ content = Text.encode edited

/-- **A toggle, where anything may go wrong**, is all or nothing once the directories are there. -/
theorem runs_toggleIn {switch : Switch} {r : Except Trouble Bool} (hw : w.target = path)
    (h : Runs w (toggleIn path switch) d log r e) :
    ∃ before after made d₁, log = before ++ after ∧ Runs w (makeParent path) d before made d₁ ∧
      AllOrNothing path d₁ after r (Turned w path switch d₁ after) e := by
  obtain ⟨before, after, made, d₁, rfl, hmade, h⟩ := runs_bind_iff.1 h
  refine ⟨before, after, made, d₁, rfl, hmade, ?_⟩
  cases made with
  | error fault =>
    obtain ⟨rfl, rfl, rfl⟩ := h
    exact .of_error path e _
  | ok =>
    obtain ⟨reading, after, current, d₂, rfl, hread, h⟩ := runs_bind_iff.1 h
    obtain ⟨rfl, hstill⟩ := hread.of_isStill (isStill_currentText path)
    refine AllOrNothing.of_append ?_ hstill
    cases current with
    | error fault =>
      obtain ⟨rfl, rfl, rfl⟩ := h
      exact .of_error path e _
    | ok text =>
      dsimp only at h
      split at h
      · obtain ⟨rfl, rfl, rfl⟩ := h
        exact .of_error path e _
      · next on edited htoggle =>
        obtain ⟨replacing, rest, replaced, d₃, rfl, hreplace, h⟩ := runs_bind_iff.1 h
        have hwhole := runs_replace hw hreplace
        -- nothing is done after the replacement but to tell what has come of it
        cases replaced with
        | error fault =>
          obtain ⟨rfl, rfl, rfl⟩ := h
          rw [List.append_nil]
          exact ⟨hwhole.seen, fun _ _ => hwhole.nothing fault rfl, nofun⟩
        | ok =>
          obtain ⟨rfl, rfl, rfl⟩ := h
          rw [List.append_nil]
          refine ⟨hwhole.seen, nofun, fun on' hon => ?_⟩
          obtain rfl := Except.ok.inj hon
          obtain ⟨content, rfl, hreplaced⟩ := hwhole.all () rfl
          exact ⟨_, ⟨reading, _, text, edited, rfl, hread, htoggle, rfl⟩, hreplaced⟩

/-! ### A path that goes back -/

/-- A path to the one file by way of a directory that is not there. -/
def backPath : Path := ⟨"x/../c.toml"⟩

/-- A text that breaks off. -/
def broken : List Char := "a = [".toList

theorem toggle?_broken (switch : Switch) : toggle? switch broken = none := by
  have hread : Toml.Document.read broken = none := by cbv
  rw [toggle?, hread]
  rfl

/-- A toggle that fails may have brought a file into sight: the path led nowhere before, for there
was no directory to go back from, and it leads to the file once the toggle has made that one. -/
theorem toggle_shows_file :
    (loneFile broken).disk.at? backPath = none ∧
      ((loneFile broken).run (toggleIn backPath .enabled)).1 = .error (.edit backPath) ∧
      ((loneFile broken).run (toggleIn backPath .enabled)).2.disk.at? backPath
        = some (.file (Text.encode broken) 0o644) := by
  let made : Machine Unit :=
    { loneFile broken with disk := (loneFile broken).disk.put ["x"] .directory }
  have hparent : (loneFile broken).run (makeParent backPath) = (.ok (), made) := rfl
  have hcurrent : made.run (currentText backPath) = (.ok (String.ofList broken), made) := by
    have hthere : made.run (currentText backPath) = made.run (readText backPath) := rfl
    have hread : made.answer (.read backPath) = (.ok (Text.encode broken), made) := rfl
    unfold readText at hthere
    rw [hthere, Machine.run_then, Machine.run_request, hread]
    simp only [Text.decode?_encode]
    rfl
  have htoggle : (loneFile broken).run (toggleIn backPath .enabled)
      = (.error (.edit backPath), made) := by
    unfold toggleIn
    rw [Machine.run_then, hparent]
    dsimp only
    rw [Machine.run_then, hcurrent]
    dsimp only
    rw [String.toList_ofList, toggle?_broken]
    rfl
  refine ⟨rfl, ?_, ?_⟩
  · rw [htoggle]
  · rw [htoggle]
    rfl

end Settings

end LintHost
