/-
LintHost/Proofs/Settings/Toggling.lean

Switches turned over in a file.  Toggling reads what loading reads, and what it writes is
loaded again, so each toggle gives the opposite of what loading gave just before, and after any
row of toggles the settings are the old ones but for the switches that were turned over an odd
number of times (`toggles_turn_over`).

The one thing that loading accepts and editing does not is a number out of range where loading
does not look (`toggle_refuses_oversized_float`).
-/
import LintHost.Proofs.Settings.Switching
import LintHost.Proofs.Storage.Replacing
import LintHost.Proofs.Text.Encoding
import LintHost.Settings.Toggle

namespace LintHost

open Storage

variable {σ : Type}

namespace Machine

variable {m : Machine σ} {file : Path} {env : Environment}

/-! ### Reading a file -/

theorem run_readText_eq_ok_iff {text : String} : (m.run (readText file)).1 = .ok text ↔
    ∃ bytes s, m.disk.read file = .ok bytes ∧ Text.decode? bytes = some s ∧
      String.ofList s = text := by
  unfold readText
  rw [run_then, run_request]
  simp only [answer]
  rcases m.disk.read file with fault | bytes
  · simp [run, pure]
  · rcases hd : Text.decode? bytes with - | s <;> simp [run, pure, hd]

theorem run_loadFrom_eq_ok_iff {c : Settings} :
    (m.run (Settings.loadFrom env file)).1 = .ok c ↔ ∃ text,
      (m.run (readText file)).1 = .ok text ∧ Settings.read? env text.toList = some c := by
  unfold Settings.loadFrom
  rw [run_then]
  rcases (m.run (readText file)).1 with fault | text
  · simp [run, pure]
  · rcases hr : Settings.read? env text.toList with - | s <;> simp [run, pure, hr]

/-- What is read in a file is still read there as long as nothing is taken from the disk. -/
theorem readText_of_holds {m' : Machine σ} (h : Disk.Holds m.disk m'.disk) {text : String}
    (ht : (m.run (readText file)).1 = .ok text) : (m'.run (readText file)).1 = .ok text := by
  rw [run_readText_eq_ok_iff] at ht ⊢
  obtain ⟨bytes, s, hr, hd⟩ := ht
  exact ⟨bytes, s, h.read hr, hd⟩

/-- Making the directory of a file takes nothing from the disk. -/
theorem holds_makeParent (m : Machine σ) (file : Path) :
    Disk.Holds m.disk (m.run (Settings.makeParent file)).2.disk := by
  unfold Settings.makeParent
  split
  · exact ⟨rfl, fun _ _ h => h⟩
  · exact Disk.holds_makeDirectories _ _

end Machine

namespace Settings

variable {m : Machine σ} {file : Path} {env : Environment} {c : Settings} {w : Switch}

/-! ### One toggle -/

/-- Whether a file operation stopped a toggle. -/
def Blocked (r : Except Trouble Bool) : Prop :=
  ∃ fault file, r = .error (.read file fault) ∨ r = .error (.write file fault)

/-- What a toggle does that no file operation stops: it reads the text of the file, which counts as
empty if the file is not there once its directory has been made, and leaves the edited text. -/
theorem toggleIn_eq (h : ¬Blocked (m.run (toggleIn file w)).1) :
    ∃ text, ((m.run (makeParent file)).2.run (currentText file)).1 = .ok text ∧
      (toggle? w text.toList = none ∧ (m.run (toggleIn file w)).1 = .error (.edit file) ∨
        ∃ on edited, toggle? w text.toList = some (on, edited) ∧
          (m.run (toggleIn file w)).1 = .ok on ∧
          (m.run (toggleIn file w)).2.disk.read file = .ok (Text.encode edited)) := by
  unfold toggleIn at h ⊢
  rw [Machine.run_then] at h ⊢
  generalize m.run (makeParent file) = made at h ⊢
  obtain ⟨made, m⟩ := made
  cases made with
  | error fault => exact absurd ⟨fault, file, Or.inr rfl⟩ h
  | ok =>
    dsimp only at h ⊢
    rw [Machine.run_then] at h ⊢
    generalize m.run (currentText file) = current at h ⊢
    obtain ⟨current, m⟩ := current
    cases current with
    | error fault => exact absurd ⟨fault, file, Or.inl rfl⟩ h
    | ok text =>
      refine ⟨text, rfl, ?_⟩
      dsimp only at h ⊢
      rcases ht : toggle? w text.toList with - | ⟨on, edited⟩
      · exact Or.inl ⟨rfl, rfl⟩
      · refine Or.inr ⟨on, edited, rfl, ?_⟩
        simp only [ht] at h ⊢
        rw [Machine.run_then] at h ⊢
        have hread := @Machine.read_replace σ m file (Text.encode edited)
        generalize m.run (replace file (Text.encode edited)) = replaced at h hread ⊢
        obtain ⟨replaced, m⟩ := replaced
        cases replaced with
        | error fault => exact absurd ⟨fault, file, Or.inr rfl⟩ h
        | ok => exact ⟨rfl, hread rfl⟩

/-- What loading gives, where a file that is not there once its directory has been made counts as
the defaults. -/
def holding (env : Environment) (file : Path) (m : Machine σ) : Except Trouble Settings :=
  if (m.run (makeParent file)).2.disk.isThere file then (m.run (loadFrom env file)).1 else .ok {}

/-- Whether a file holds a text that can be edited, if it holds a text at all. -/
def HoldsEditable (file : Path) (m : Machine σ) : Prop :=
  ∀ text, (m.run (readText file)).1 = .ok text → Editable text.toList

theorem holding_of_load (h : (m.run (loadFrom env file)).1 = .ok c) :
    holding env file m = .ok c := by
  obtain ⟨text, ht, -⟩ := Machine.run_loadFrom_eq_ok_iff.1 h
  obtain ⟨bytes, s, hr, -⟩ := Machine.run_readText_eq_ok_iff.1 ht
  rw [holding, if_pos (Disk.isThere_of_read ((m.holds_makeParent file).read hr)), h]

theorem membersOf?_nil : Toml.membersOf? [] = some [] := by
  have ht : Toml.tokens [] = some [] := by rw [Toml.tokens]
  have hmark : Toml.Document.withoutMark [] = [] := rfl
  rw [Toml.membersOf?, Toml.Document.read, hmark, ht]
  rfl

theorem expandString_ruff (env : Environment) : env.expandString "ruff" = "ruff" := by
  rw [Environment.expandString, env.expand_of_free (by decide), String.ofList_toList]

/-- An empty text gives the defaults. -/
theorem read?_nil (env : Environment) : read? env [] = some {} := by
  refine Option.bind_eq_some_iff.2 ⟨[], membersOf?_nil, ofMembers?_eq_some_iff.2 ?_⟩
  exact ⟨rfl, rfl, ⟨"ruff", rfl, (expandString_ruff env).symm⟩, ⟨none, rfl, rfl⟩, rfl, rfl, rfl,
    rfl, rfl, rfl, rfl, rfl, rfl, rfl⟩

theorem editable_nil : Editable [] := by
  intro ms hms
  rw [membersOf?_nil] at hms
  obtain rfl := Option.some.inj hms
  rw [Toml.membersWithin]

theorem run_currentText (m : Machine σ) (file : Path) : (m.run (currentText file)).1
    = if m.disk.isThere file then (m.run (readText file)).1 else .ok "" := by
  unfold currentText
  rw [Machine.run_then]
  change (m.run (if m.disk.isThere file = true then readText file else pure (.ok ""))).1 = _
  split <;> rfl

/-- What a toggle reads is what loading reads. -/
theorem currentText_of_holding (h : holding env file m = .ok c) (he : HoldsEditable file m)
    {text : String} (ht : ((m.run (makeParent file)).2.run (currentText file)).1 = .ok text) :
    read? env text.toList = some c ∧ Editable text.toList := by
  rw [run_currentText] at ht
  unfold holding at h
  split at h
  · next hthere =>
    rw [if_pos hthere] at ht
    obtain ⟨loaded, hl, hc⟩ := Machine.run_loadFrom_eq_ok_iff.1 h
    rw [Machine.readText_of_holds (m.holds_makeParent file) hl] at ht
    cases ht
    exact ⟨hc, he _ hl⟩
  · next hthere =>
    rw [if_neg hthere] at ht
    cases ht
    cases h
    exact ⟨read?_nil env, editable_nil⟩

/-- A toggle that no file operation stops gives the opposite of what loading gave, and loading then
gives the settings with that switch in that position. -/
theorem toggleIn_of_holding (hc : holding env file m = .ok c) (he : HoldsEditable file m)
    (h : ¬Blocked (m.run (toggleIn file w)).1) :
    (m.run (toggleIn file w)).1 = .ok (!c.get w) ∧
      ((m.run (toggleIn file w)).2.run (loadFrom env file)).1 = .ok (c.set (!c.get w) w) ∧
      HoldsEditable file (m.run (toggleIn file w)).2 := by
  obtain ⟨text, ht, hcases⟩ := toggleIn_eq h
  obtain ⟨hread, hedit⟩ := currentText_of_holding hc he ht
  obtain ⟨edited, htoggle, hread', hedit'⟩ := toggle?_of_read? hread hedit w
  rw [htoggle] at hcases
  obtain ⟨hnone, -⟩ | ⟨on, edited', heq, hon, hfile⟩ := hcases
  · cases hnone
  · cases heq
    have htext : ((m.run (toggleIn file w)).2.run (readText file)).1
        = .ok (String.ofList edited) :=
      Machine.run_readText_eq_ok_iff.2 ⟨_, edited, hfile, Text.decode?_encode edited, rfl⟩
    refine ⟨hon, Machine.run_loadFrom_eq_ok_iff.2 ⟨_, htext, ?_⟩, fun text ht => ?_⟩
    · rwa [String.toList_ofList]
    · rw [htext] at ht
      cases ht
      rwa [String.toList_ofList]

/-! ### Rows of toggles -/

/-- The settings after switches were turned over: those that were turned over an odd number of
times stand the other way. -/
def turnedOver (c : Settings) (ws : List Switch) : Settings :=
  { c with
    enabled := if ws.count .enabled % 2 = 1 then !c.enabled else c.enabled
    useNoqa := if ws.count .useNoqa % 2 = 1 then !c.useNoqa else c.useNoqa }

theorem turnedOver_cons (c : Settings) (w : Switch) (ws : List Switch) :
    c.turnedOver (w :: ws) = (c.set (!c.get w) w).turnedOver ws := by
  have hflip : ∀ (b : Bool) (n : Nat), (if (n + 1) % 2 = 1 then !b else b)
      = if n % 2 = 1 then !!b else !b := fun b n => by
    rw [Bool.not_not]
    rcases Nat.mod_two_eq_zero_or_one n with h | h
    · rw [if_pos (by omega), if_neg (by omega)]
    · rw [if_neg (by omega), if_pos h]
  cases w with
  | enabled => simp [turnedOver, set, get, hflip]
  | useNoqa => simp [turnedOver, set, get, hflip]

/-- The machine after switches were turned over in a file, one after the other. -/
def afterToggles (file : Path) (m : Machine σ) (ws : List Switch) : Machine σ :=
  ws.foldl (fun m w => (m.run (toggleIn file w)).2) m

/-- Whether file operations stop no toggle of a row. -/
def Unblocked (file : Path) (m : Machine σ) (ws : List Switch) : Prop :=
  ∀ before w after, ws = before ++ w :: after →
    ¬Blocked ((afterToggles file m before).run (toggleIn file w)).1

theorem Unblocked.of_append {ws rest : List Switch} (h : Unblocked file m (ws ++ rest)) :
    Unblocked file m ws := by
  rintro before w after rfl
  exact h before w (after ++ rest) (by simp)

theorem Unblocked.of_cons {ws : List Switch} (h : Unblocked file m (w :: ws)) :
    ¬Blocked (m.run (toggleIn file w)).1 ∧ Unblocked file (m.run (toggleIn file w)).2 ws := by
  refine ⟨h [] w ws rfl, ?_⟩
  rintro before v after rfl
  exact h (w :: before) v after rfl

/-- A row of toggles leaves the settings with the switches turned over, in a file that can be
edited again; they are loaded from it if they were before or there was a toggle. -/
theorem afterToggles_of_holding {ws : List Switch} (hc : holding env file m = .ok c)
    (he : HoldsEditable file m) (hf : Unblocked file m ws) :
    holding env file (afterToggles file m ws) = .ok (c.turnedOver ws) ∧
      HoldsEditable file (afterToggles file m ws) ∧
      (ws ≠ [] ∨ (m.run (loadFrom env file)).1 = .ok c →
        ((afterToggles file m ws).run (loadFrom env file)).1 = .ok (c.turnedOver ws)) := by
  induction ws generalizing m c with
  | nil => exact ⟨hc, he, fun h => h.resolve_left (by simp)⟩
  | cons w ws ih =>
    obtain ⟨hw, hf⟩ := hf.of_cons
    obtain ⟨-, hload, he⟩ := toggleIn_of_holding hc he hw
    obtain ⟨hheld, he, hloaded⟩ := ih (holding_of_load hload) he hf
    rw [turnedOver_cons]
    exact ⟨hheld, he, fun _ => hloaded (Or.inr hload)⟩

/-! ### A disk with one file -/

/-- The path of the one file. -/
def lonePath : Path := ⟨"/c.toml"⟩

/-- A machine without programs whose disk holds one file, with the given text. -/
def loneFile (s : List Char) : Machine Unit where
  disk := { entries := [(["c.toml"], .file (Text.encode s) 0o644)] }
  program? _ := none
  state := ()

variable {s : List Char}

theorem run_readText_lone (s : List Char) :
    (loneFile s).run (readText lonePath) = (.ok (String.ofList s), loneFile s) := by
  have hread : (loneFile s).answer (.read lonePath) = (.ok (Text.encode s), loneFile s) := rfl
  unfold readText
  rw [Machine.run_then, Machine.run_request, hread]
  simp only [Text.decode?_encode]
  rfl

theorem run_replace_lone (s s' : List Char) :
    (loneFile s).run (replace lonePath (Text.encode s')) = (.ok (), loneFile s') := by
  have hdirectory : (loneFile s).disk.findDirectory ⟨"/"⟩ = .ok [] := rfl
  have hname : (loneFile s).disk.freshName [] = ".tmp0" := rfl
  have htemporary : (loneFile s).answer (.makeTemporary (directoryOf lonePath))
      = (.ok ⟨"/.tmp0"⟩, { loneFile s with
          disk := (loneFile s).disk.put [".tmp0"] (.file [] Disk.newMode) }) := by
    have hd : directoryOf lonePath = ⟨"/"⟩ := rfl
    simp only [Machine.answer, Machine.withDisk, hd, Disk.makeTemporary, hdirectory, hname]
    rfl
  unfold replace
  rw [Machine.run_then, Machine.run_request, htemporary]
  rfl

/-- A toggle of the one file changes it as its text is changed. -/
theorem run_toggleIn_lone (s : List Char) (w : Switch) :
    (loneFile s).run (toggleIn lonePath w) = match toggle? w s with
      | none => (.error (.edit lonePath), loneFile s)
      | some (on, edited) => (.ok on, loneFile edited) := by
  have hparent : (loneFile s).run (makeParent lonePath) = (.ok (), loneFile s) := rfl
  have hcurrent : (loneFile s).run (currentText lonePath) = (loneFile s).run (readText lonePath) :=
    rfl
  unfold toggleIn
  rw [Machine.run_then, hparent]
  dsimp only
  rw [Machine.run_then, hcurrent, run_readText_lone]
  dsimp only
  rw [String.toList_ofList]
  rcases toggle? w s with - | ⟨on, edited⟩
  · rfl
  · dsimp only
    rw [Machine.run_then, run_replace_lone]
    rfl

theorem run_loadFrom_lone (h : read? env s = some c) :
    ((loneFile s).run (loadFrom env lonePath)).1 = .ok c := by
  refine Machine.run_loadFrom_eq_ok_iff.2 ⟨String.ofList s, ?_, by rwa [String.toList_ofList]⟩
  rw [run_readText_lone]

theorem holdsEditable_lone (he : Editable s) : HoldsEditable lonePath (loneFile s) := by
  intro text ht
  rw [run_readText_lone] at ht
  cases ht
  rwa [String.toList_ofList]

/-- No file operation stops a toggle of the one file. -/
theorem unblocked_lone (h : read? env s = some c) (he : Editable s) (ws : List Switch) :
    Unblocked lonePath (loneFile s) ws := by
  rintro before w after rfl
  induction before generalizing s c with
  | nil =>
    obtain ⟨edited, ht, -⟩ := toggle?_of_read? h he w
    rintro ⟨fault, file, hr⟩
    rw [afterToggles, List.foldl_nil, run_toggleIn_lone, ht] at hr
    rcases hr with hr | hr <;> cases hr
  | cons v before ih =>
    obtain ⟨edited, ht, hread, he⟩ := toggle?_of_read? h he v
    have hafter : afterToggles lonePath (loneFile s) (v :: before)
        = afterToggles lonePath (loneFile edited) before := by
      rw [afterToggles, List.foldl_cons, run_toggleIn_lone, ht]
      rfl
    rw [hafter]
    exact ih hread he

/-! ### The lens -/

/-- Toggling is a lens on the settings that a file holds.  Each toggle of a row gives the opposite
of what loading gives just before it, and the row leaves the settings as they were but for the
switches that were turned over an odd number of times. -/
theorem toggles_turn_over {ws : List Switch} (hc : holding env file m = .ok c)
    (he : HoldsEditable file m) (hf : Unblocked file m ws) :
    (∀ before w after, ws = before ++ w :: after →
      holding env file (afterToggles file m before) = .ok (c.turnedOver before) ∧
      ((afterToggles file m before).run (toggleIn file w)).1
        = .ok (!(c.turnedOver before).get w)) ∧
    holding env file (afterToggles file m ws) = .ok (c.turnedOver ws) ∧
    (ws ≠ [] ∨ (m.run (loadFrom env file)).1 = .ok c →
      ((afterToggles file m ws).run (loadFrom env file)).1 = .ok (c.turnedOver ws)) := by
  obtain ⟨hheld, -, hloaded⟩ := afterToggles_of_holding hc he hf
  refine ⟨?_, hheld, hloaded⟩
  rintro before w after rfl
  obtain ⟨hbefore, he, -⟩ := afterToggles_of_holding hc he hf.of_append
  exact ⟨hbefore, (toggleIn_of_holding hbefore he (hf before w after rfl)).1⟩

/-- A text with a comment and a section. -/
def commented : List Char :=
  "use_noqa = false # for now\n[severity]\nerror = [\"E\"]\n".toList

theorem membersOf?_commented : Toml.membersOf? commented = some [("use_noqa", .boolean false),
    ("severity", .table [("error", .array [.string "E"])])] := by
  cbv

/-- In a text with a comment and a section, linting is switched twice and suppression once. -/
theorem toggles_turn_over_commented :
    holding { values := [] } lonePath (loneFile commented)
        = .ok { useNoqa := false, cascade := { error := ["E"] } } ∧
      HoldsEditable lonePath (loneFile commented) ∧
      Unblocked lonePath (loneFile commented) [.enabled, .useNoqa, .enabled] ∧
      ((loneFile commented).run (toggleIn lonePath .enabled)).1 = .ok false ∧
      ((afterToggles lonePath (loneFile commented) [.enabled, .useNoqa, .enabled]).run
          (loadFrom { values := [] } lonePath)).1
        = .ok { useNoqa := true, cascade := { error := ["E"] } } := by
  have hread : read? { values := [] } commented
      = some { useNoqa := false, cascade := { error := ["E"] } } :=
    Option.bind_eq_some_iff.2 ⟨_, membersOf?_commented, ofMembers?_eq_some_iff.2 ⟨rfl, rfl,
      ⟨"ruff", rfl, (expandString_ruff _).symm⟩, ⟨none, rfl, rfl⟩, rfl, rfl, rfl, rfl, rfl, rfl,
      rfl, rfl, rfl, rfl⟩⟩
  have he : Editable commented := fun ms hms => by
    rw [membersOf?_commented] at hms
    obtain rfl := Option.some.inj hms
    decide
  have hc := holding_of_load (run_loadFrom_lone hread)
  have hf := unblocked_lone hread he [.enabled, .useNoqa, .enabled]
  obtain ⟨htoggles, -, hload⟩ := toggles_turn_over hc (holdsEditable_lone he) hf
  exact ⟨hc, holdsEditable_lone he, hf, (htoggles [] .enabled [.useNoqa, .enabled] rfl).2,
    hload (Or.inl (by simp))⟩

/-- A text with a float that is no finite 64-bit one, behind the fields of a section. -/
def oversized : List Char :=
  "severity = [[], [], [], 1e999]\n".toList

theorem membersOf?_oversized : Toml.membersOf? oversized
    = some [("severity", .array [.array [], .array [], .array [],
        .float (some { whole := ['1'], exponent := some (false, ['9', '9', '9']) })])] := by
  cbv

/-- What stands behind the fields of a section is not looked at when settings are loaded, but where
it is an oversized float no switch can be turned over.  There is no integer in the text. -/
theorem toggle_refuses_oversized_float :
    Toml.membersOf? oversized = some [("severity", .array [.array [], .array [], .array [],
        .float (some { whole := ['1'], exponent := some (false, ['9', '9', '9']) })])] ∧
      ((loneFile oversized).run (loadFrom { values := [] } lonePath)).1
        = .ok { cascade := .empty } ∧
      ((loneFile oversized).run (toggleIn lonePath .enabled)).1 = .error (.edit lonePath) := by
  have hread : read? { values := [] } oversized = some { cascade := .empty } :=
    Option.bind_eq_some_iff.2 ⟨_, membersOf?_oversized, ofMembers?_eq_some_iff.2 ⟨rfl, rfl,
      ⟨"ruff", rfl, (expandString_ruff _).symm⟩, ⟨none, rfl, rfl⟩, rfl, rfl, rfl, rfl, rfl, rfl,
      rfl, rfl, rfl, rfl⟩⟩
  have hnone : toggle? .enabled oversized = none :=
    toggle?_eq_none membersOf?_oversized (by decide) .enabled
  refine ⟨membersOf?_oversized, run_loadFrom_lone hread, ?_⟩
  rw [run_toggleIn_lone, hnone]

end Settings

end LintHost
