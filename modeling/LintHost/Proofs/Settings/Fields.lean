/-
LintHost/Proofs/Settings/Fields.lean

The fields of settings one by one.  Each field has a key, at the root or in a section, and a
kind of value, and what is read under its key may be changed by the environment
(`Field.finish`).  The values of a kind are those of its contents (`Kind.read_eq_some_iff`).
Where the sections are tables, a root table gives settings exactly if it says each field of
them and all other numbers can be used (`ofMembers?_eq_some_iff_said`), and it gives some if
no field is said wrongly (`exists_of_said`).
-/
import LintHost.Proofs.Settings.Toggling

namespace LintHost.Settings

open Toml (Value TablesAlike)

/-! ### Contents -/

/-- The kinds of value that fields have. -/
inductive Kind where
  | truth
  | text
  | texts
  | number
  deriving DecidableEq, Repr

/-- What can be given for a field. -/
inductive Content where
  | truth (b : Bool)
  | text (s : String)
  | texts (items : List String)
  | number (n : UInt64)
  deriving DecidableEq, Repr

/-- What a field can hold: a content, or the path that is found under a text. -/
inductive Held where
  | content (a : Content)
  | path (p : Path)
  deriving DecidableEq, Repr

/-- The kind of a content. -/
def Content.kind : Content → Kind
  | .truth _ => .truth
  | .text _ => .text
  | .texts _ => .texts
  | .number _ => .number

/-- The value by which a content is given. -/
def Content.value : Content → Value
  | .truth b => .boolean b
  | .text s => .string s
  | .texts items => .array (items.map .string)
  | .number n => .integer n.toNat

/-- The content of a value of some kind. -/
def Kind.read : Kind → Decode Content
  | .truth, v => (boolean v).map .truth
  | .text, v => (string v).map .text
  | .texts, v => (strings v).map .texts
  | .number, v => (word v).map .number

theorem boolean_eq_some_iff {v : Value} {b : Bool} : boolean v = some b ↔ v = .boolean b := by
  cases v <;> simp [boolean]

theorem string_eq_some_iff {v : Value} {s : String} : string v = some s ↔ v = .string s := by
  cases v <;> simp [string]

theorem strings_eq_some_iff {v : Value} {texts : List String} :
    strings v = some texts ↔ v = .array (texts.map .string) := by
  have hitems : ∀ items : List Value, items.mapM string = some texts ↔
      items = texts.map .string := by
    intro items
    rw [Text.mapM_eq_some_iff, ← List.forall₂_eq_eq_eq, List.forall₂_map_right_iff]
    simp only [string_eq_some_iff]
  cases v with
  | array items => simp [strings, hitems]
  | _ => simp [strings]

theorem word_eq_some_iff {v : Value} {n : UInt64} : word v = some n ↔ v = .integer n.toNat := by
  cases v with
  | integer k =>
    rw [word, Value.integer.injEq]
    constructor
    · intro h
      split at h
      · next hk =>
        cases h
        rw [UInt64.toNat_ofNat_of_lt' (by omega), Int.toNat_of_nonneg hk.1]
      · cases h
    · rintro rfl
      have hn : n.toNat < UInt64.size := n.toNat_lt_size
      rw [if_pos ⟨by omega, by omega⟩, Int.toNat_natCast, UInt64.ofNat_toNat]
  | _ => simp [word]

/-- **The values of a kind** are those by which its contents are given. -/
theorem Kind.read_eq_some_iff {k : Kind} {v : Value} {a : Content} :
    k.read v = some a ↔ a.kind = k ∧ v = a.value := by
  cases k <;> cases a <;> simp [Kind.read, Content.kind, Content.value, boolean_eq_some_iff,
    string_eq_some_iff, strings_eq_some_iff, word_eq_some_iff]

theorem Steadfast.map {α β : Type} {decode : Decode α} (h : Steadfast decode) (g : α → β) :
    Steadfast fun v => (decode v).map g := by
  intro v w b hvw hv
  obtain ⟨a, ha, rfl⟩ := Option.map_eq_some_iff.1 hv
  exact Option.map_eq_some_iff.2 ⟨a, h hvw ha, rfl⟩

theorem Kind.steadfast_read (k : Kind) : Steadfast k.read := by
  cases k with
  | truth => exact steadfast_boolean.map Content.truth
  | text => exact steadfast_string.map Content.text
  | texts => exact steadfast_strings.map Content.texts
  | number => exact steadfast_word.map Content.number

/-! ### Fields -/

/-- The fields of settings. -/
inductive Field where
  | enabled
  | executable
  | configPath
  | targetVersion
  | useNoqa
  | markUnmatched
  | allowMagic
  | select
  | ignore
  | fixable
  | unfixable
  | error
  | warning
  | info
  | timeout
  | output
  deriving DecidableEq, Repr

namespace Field

/-- The section in which a field is given, if it is not given at the root. -/
def section? : Field → Option String
  | error | warning | info => some "severity"
  | timeout | output => some "process"
  | _ => none

/-- The key of a field. -/
def key : Field → String
  | enabled => "enabled"
  | executable => "executable"
  | configPath => "config_path"
  | targetVersion => "target_version"
  | useNoqa => "use_noqa"
  | markUnmatched => "mark_uncategorized"
  | allowMagic => "allow_magic"
  | select => "select"
  | ignore => "ignore"
  | fixable => "fixable"
  | unfixable => "unfixable"
  | error => "error"
  | warning => "warning"
  | info => "info"
  | timeout => "timeout_secs"
  | output => "max_output_bytes"

/-- The kind of a field. -/
def kind : Field → Kind
  | enabled | useNoqa | markUnmatched | allowMagic => .truth
  | executable | configPath | targetVersion => .text
  | select | ignore | fixable | unfixable | error | warning | info => .texts
  | timeout | output => .number

/-- What a field of settings holds; some need not hold anything. -/
def get (c : Settings) : Field → Option Held
  | enabled => some (.content (.truth c.enabled))
  | executable => some (.content (.text c.executable))
  | configPath => c.configPath.map .path
  | targetVersion => c.targetVersion.map fun s => .content (.text s)
  | useNoqa => some (.content (.truth c.useNoqa))
  | markUnmatched => some (.content (.truth c.markUnmatched))
  | allowMagic => some (.content (.truth c.allowMagic))
  | select => some (.content (.texts c.select))
  | ignore => some (.content (.texts c.ignore))
  | fixable => some (.content (.texts c.fixable))
  | unfixable => some (.content (.texts c.unfixable))
  | error => some (.content (.texts c.cascade.error))
  | warning => some (.content (.texts c.cascade.warning))
  | info => some (.content (.texts c.cascade.info))
  | timeout => some (.content (.number c.limits.timeoutSeconds))
  | output => some (.content (.number c.limits.maxOutputBytes))

/-- What a field comes to hold when a content is given for it. -/
def finish (env : Environment) : Field → Content → Held
  | executable, .text s => .content (.text (env.expandString s))
  | configPath, .text s => .path (fromHome env (env.expandString s))
  | _, a => .content a

end Field

/-- Settings are told by their fields. -/
theorem eq_of_fields {c d : Settings} (h : ∀ f : Field, f.get c = f.get d) : c = d := by
  -- the two fields that need not hold anything are compared through their contents
  have hpath : Function.Injective Held.path := fun _ _ heq => by cases heq; rfl
  have hversion : Function.Injective fun s => Held.content (.text s) :=
    fun _ _ heq => by cases heq; rfl
  have hcascade : c.cascade = d.cascade := by
    have herror := h .error
    have hwarning := h .warning
    have hinfo := h .info
    cases hc : c.cascade
    cases hd : d.cascade
    simp_all [Field.get]
  have hlimits : c.limits = d.limits := by
    have htimeout := h .timeout
    have houtput := h .output
    cases hc : c.limits
    cases hd : d.limits
    simp_all [Field.get]
  have hconfig := Option.map_injective hpath (h .configPath)
  have hversion := Option.map_injective hversion (h .targetVersion)
  have henabled := h .enabled
  have hexecutable := h .executable
  have hnoqa := h .useNoqa
  have hmark := h .markUnmatched
  have hmagic := h .allowMagic
  have hselect := h .select
  have hignore := h .ignore
  have hfixable := h .fixable
  have hunfixable := h .unfixable
  cases c
  cases d
  simp_all [Field.get]

/-! ### What a root table says -/

variable {env : Environment} {ms : List (String × Value)} {c : Settings} {f : Field}

/-- The members of a section; none if there is no table of that name. -/
def sectionOf (ms : List (String × Value)) (name : String) : List (String × Value) :=
  match ms.lookup name with
  | some (.table members) => members
  | _ => []

namespace Field

/-- The members among which a field is given. -/
def members (f : Field) (ms : List (String × Value)) : List (String × Value) :=
  match f.section? with
  | none => ms
  | some name => sectionOf ms name

/-- The value under the key of a field. -/
def find? (f : Field) (ms : List (String × Value)) : Option Value :=
  (f.members ms).lookup f.key

/-- What is said of a field: its default if its key is missing, nothing if the value under the key
is of another kind. -/
def said? (env : Environment) (f : Field) (ms : List (String × Value)) :
    Option (Option Held) :=
  match f.find? ms with
  | none => some (f.get {})
  | some v => (f.kind.read v).map fun a => some (f.finish env a)

theorem said?_eq {α : Type} {decode : Decode α} {default : α} (g : α → Option Held)
    (hdefault : f.get {} = g default)
    (hread : ∀ v, (f.kind.read v).map (fun a => some (f.finish env a)) = (decode v).map g) :
    f.said? env ms = (keyed (f.members ms) f.key decode default).map g := by
  unfold said? keyed find?
  cases (f.members ms).lookup f.key with
  | none => rw [hdefault]; rfl
  | some v => exact hread v

end Field

/-- What is said of each field is what is read under its key. -/
structure SaysFields (env : Environment) (ms : List (String × Value)) : Prop where
  enabled : Field.enabled.said? env ms
    = (keyed ms "enabled" boolean true).map fun b => some (.content (.truth b))
  executable : Field.executable.said? env ms
    = (keyed ms "executable" string "ruff").map fun s => some (.content (.text (env.expandString s)))
  configPath : Field.configPath.said? env ms
    = (keyed ms "config_path" (fun v => (string v).map some) none).map fun o =>
      o.map fun s => .path (fromHome env (env.expandString s))
  targetVersion : Field.targetVersion.said? env ms
    = (keyed ms "target_version" (fun v => (string v).map some) none).map fun o =>
      o.map fun s => .content (.text s)
  useNoqa : Field.useNoqa.said? env ms
    = (keyed ms "use_noqa" boolean true).map fun b => some (.content (.truth b))
  markUnmatched : Field.markUnmatched.said? env ms
    = (keyed ms "mark_uncategorized" boolean true).map fun b => some (.content (.truth b))
  allowMagic : Field.allowMagic.said? env ms
    = (keyed ms "allow_magic" boolean false).map fun b => some (.content (.truth b))
  select : Field.select.said? env ms
    = (keyed ms "select" strings []).map fun items => some (.content (.texts items))
  ignore : Field.ignore.said? env ms
    = (keyed ms "ignore" strings []).map fun items => some (.content (.texts items))
  fixable : Field.fixable.said? env ms
    = (keyed ms "fixable" strings []).map fun items => some (.content (.texts items))
  unfixable : Field.unfixable.said? env ms
    = (keyed ms "unfixable" strings []).map fun items => some (.content (.texts items))
  error : Field.error.said? env ms
    = (keyed (sectionOf ms "severity") "error" strings ["E", "F"]).map fun items =>
      some (.content (.texts items))
  warning : Field.warning.said? env ms
    = (keyed (sectionOf ms "severity") "warning" strings ["W", "C", "B", "N"]).map fun items =>
      some (.content (.texts items))
  info : Field.info.said? env ms
    = (keyed (sectionOf ms "severity") "info" strings ["D", "I", "UP"]).map fun items =>
      some (.content (.texts items))
  timeout : Field.timeout.said? env ms
    = (keyed (sectionOf ms "process") "timeout_secs" word 100).map fun n => some (.content (.number n))
  output : Field.output.said? env ms
    = (keyed (sectionOf ms "process") "max_output_bytes" word 104857600).map fun n =>
      some (.content (.number n))

theorem saysFields (env : Environment) (ms : List (String × Value)) : SaysFields env ms where
  enabled := Field.said?_eq _ rfl fun _ => Option.map_map _ _ _
  executable := Field.said?_eq _ (by rw [expandString_ruff]; rfl) fun _ => Option.map_map _ _ _
  configPath := Field.said?_eq _ rfl fun v => by
    show ((string v).map _).map _ = ((string v).map some).map _
    cases string v <;> rfl
  targetVersion := Field.said?_eq _ rfl fun v => by
    show ((string v).map _).map _ = ((string v).map some).map _
    cases string v <;> rfl
  useNoqa := Field.said?_eq _ rfl fun _ => Option.map_map _ _ _
  markUnmatched := Field.said?_eq _ rfl fun _ => Option.map_map _ _ _
  allowMagic := Field.said?_eq _ rfl fun _ => Option.map_map _ _ _
  select := Field.said?_eq _ rfl fun _ => Option.map_map _ _ _
  ignore := Field.said?_eq _ rfl fun _ => Option.map_map _ _ _
  fixable := Field.said?_eq _ rfl fun _ => Option.map_map _ _ _
  unfixable := Field.said?_eq _ rfl fun _ => Option.map_map _ _ _
  error := Field.said?_eq _ rfl fun _ => Option.map_map _ _ _
  warning := Field.said?_eq _ rfl fun _ => Option.map_map _ _ _
  info := Field.said?_eq _ rfl fun _ => Option.map_map _ _ _
  timeout := Field.said?_eq _ rfl fun _ => Option.map_map _ _ _
  output := Field.said?_eq _ rfl fun _ => Option.map_map _ _ _

/-! ### Values under other keys -/

/-- The values of members with other names than those that are known. -/
def others (names : List String) (ms : List (String × Value)) : List Value :=
  (ms.filter fun m => !names.contains m.1).map Prod.snd

/-- The names of the fields in a section. -/
def sectionKeys : String → List String
  | "severity" => ["error", "warning", "info"]
  | "process" => ["timeout_secs", "max_output_bytes"]
  | _ => []

/-- The values under keys that are not known, at the root and in the sections. -/
def unknowns (ms : List (String × Value)) : List Value :=
  others keys ms ++ (others (sectionKeys "severity") (sectionOf ms "severity")
    ++ others (sectionKeys "process") (sectionOf ms "process"))

/-- Whether all numbers in some values can be used. -/
def Usable (vs : List Value) : Prop :=
  ∀ v ∈ vs, v.isWithin .wide = true

theorem usable_append {vs ws : List Value} : Usable (vs ++ ws) ↔ Usable vs ∧ Usable ws :=
  List.forall_mem_append

theorem named?_eq_some_iff {names : List String} :
    named? names ms = some ms ↔ Usable (others names ms) := by
  have hwithin : Toml.membersWithin .wide (ms.filter fun m => !names.contains m.1) = true ↔
      Usable (others names ms) := by
    rw [Toml.membersWithin_iff, Usable, others, List.forall_mem_map]
  rw [← hwithin, named?]
  split
  · next h => exact iff_of_true rfl h
  · next h => exact iff_of_false nofun h

/-! ### Sections -/

/-- Whether there is nothing but a table under the name of a section. -/
def IsSection (name : String) (ms : List (String × Value)) : Prop :=
  ∀ v, ms.lookup name = some v → ∃ members, v = .table members

/-- A section that is not there says what an empty one does. -/
theorem keyed_section {α : Type} {decode : Decode α} {default : α} {name : String}
    (h : IsSection name ms) (hempty : decode (.table []) = some default) :
    keyed ms name decode default = decode (.table (sectionOf ms name)) := by
  unfold keyed sectionOf
  cases hlookup : ms.lookup name with
  | none => exact hempty.symm
  | some v =>
    obtain ⟨members, rfl⟩ := h v hlookup
    rfl

theorem keyed_cascade_iff (h : IsSection "severity" ms) {x : Cascade} :
    keyed ms "severity" cascade? {} = some x ↔
      let members := sectionOf ms "severity"
      Usable (others (sectionKeys "severity") members) ∧
        keyed members "error" strings ["E", "F"] = some x.error ∧
        keyed members "warning" strings ["W", "C", "B", "N"] = some x.warning ∧
        keyed members "info" strings ["D", "I", "UP"] = some x.info := by
  have htable : keyed ms "severity" cascade? {} = cascade? (.table (sectionOf ms "severity")) :=
    keyed_section h rfl
  rw [htable]
  dsimp only
  rw [← named?_eq_some_iff]
  simp only [cascade?, fields?, Option.bind_eq_bind, Option.bind_eq_some_iff, Option.pure_def,
    Option.some.injEq]
  constructor
  · rintro ⟨fields, hfields, error, he, warning, hw, info, hi, rfl⟩
    obtain rfl := eq_of_named? hfields
    exact ⟨hfields, he, hw, hi⟩
  · rintro ⟨hfields, he, hw, hi⟩
    exact ⟨_, hfields, _, he, _, hw, _, hi, rfl⟩

theorem keyed_limits_iff (h : IsSection "process" ms) {x : Limits} :
    keyed ms "process" limits? {} = some x ↔
      let members := sectionOf ms "process"
      Usable (others (sectionKeys "process") members) ∧
        keyed members "timeout_secs" word 100 = some x.timeoutSeconds ∧
        keyed members "max_output_bytes" word 104857600 = some x.maxOutputBytes := by
  have htable : keyed ms "process" limits? {} = limits? (.table (sectionOf ms "process")) :=
    keyed_section h rfl
  rw [htable]
  dsimp only
  rw [← named?_eq_some_iff]
  simp only [limits?, fields?, Option.bind_eq_bind, Option.bind_eq_some_iff, Option.pure_def,
    Option.some.injEq]
  constructor
  · rintro ⟨fields, hfields, timeout, ht, output, ho, rfl⟩
    obtain rfl := eq_of_named? hfields
    exact ⟨hfields, ht, ho⟩
  · rintro ⟨hfields, ht, ho⟩
    exact ⟨_, hfields, _, ht, _, ho, rfl⟩

/-! ### Settings field by field -/

/-- Whether both sections are given as tables, as far as they are given. -/
def HasSections (ms : List (String × Value)) : Prop :=
  ∀ name ∈ ["severity", "process"], IsSection name ms

/-- What settings hold in a field is what is said of it, if its section is a table. -/
theorem Says.said? (h : Says env ms c) (hf : ∀ name, f.section? = some name → IsSection name ms) :
    f.said? env ms = some (f.get c) := by
  have hsaid := saysFields env ms
  obtain ⟨executable, hexecutable, e1⟩ := h.executable
  obtain ⟨path, hpath, e2⟩ := h.configPath
  cases f with
  | enabled => rw [hsaid.enabled, h.enabled]; rfl
  | executable => rw [hsaid.executable, hexecutable, Field.get, e1]; rfl
  | configPath => rw [hsaid.configPath, hpath, Field.get, e2, Option.map_map]; rfl
  | targetVersion => rw [hsaid.targetVersion, h.targetVersion]; rfl
  | useNoqa => rw [hsaid.useNoqa, h.useNoqa]; rfl
  | markUnmatched => rw [hsaid.markUnmatched, h.markUnmatched]; rfl
  | allowMagic => rw [hsaid.allowMagic, h.allowMagic]; rfl
  | select => rw [hsaid.select, h.select]; rfl
  | ignore => rw [hsaid.ignore, h.ignore]; rfl
  | fixable => rw [hsaid.fixable, h.fixable]; rfl
  | unfixable => rw [hsaid.unfixable, h.unfixable]; rfl
  | error =>
    have hcascade := (keyed_cascade_iff (hf _ rfl)).1 h.cascade
    rw [hsaid.error, hcascade.2.1]
    rfl
  | warning =>
    have hcascade := (keyed_cascade_iff (hf _ rfl)).1 h.cascade
    rw [hsaid.warning, hcascade.2.2.1]
    rfl
  | info =>
    have hcascade := (keyed_cascade_iff (hf _ rfl)).1 h.cascade
    rw [hsaid.info, hcascade.2.2.2]
    rfl
  | timeout =>
    have hlimits := (keyed_limits_iff (hf _ rfl)).1 h.limits
    rw [hsaid.timeout, hlimits.2.1]
    rfl
  | output =>
    have hlimits := (keyed_limits_iff (hf _ rfl)).1 h.limits
    rw [hsaid.output, hlimits.2.2]
    rfl

/-- In settings that are given all other numbers can be used. -/
theorem Says.usable (h : Says env ms c) (hms : HasSections ms) : Usable (unknowns ms) := by
  have hcascade := (keyed_cascade_iff (hms _ (by decide))).1 h.cascade
  have hlimits := (keyed_limits_iff (hms _ (by decide))).1 h.limits
  exact usable_append.2 ⟨named?_eq_some_iff.1 h.named, usable_append.2 ⟨hcascade.1, hlimits.1⟩⟩

/-- **A root table gives settings** if nothing is said wrongly of a field and all other numbers can
be used. -/
theorem exists_of_said (hms : HasSections ms) (hu : Usable (unknowns ms))
    (h : ∀ f : Field, ∃ x, f.said? env ms = some x) : ∃ c, ofMembers? env ms = some c := by
  have hsaid := saysFields env ms
  obtain ⟨hroot, hseverity, hprocess⟩ : Usable (others keys ms) ∧
      Usable (others (sectionKeys "severity") (sectionOf ms "severity")) ∧
      Usable (others (sectionKeys "process") (sectionOf ms "process")) :=
    (usable_append.1 hu).imp_right usable_append.1
  -- what is said of a field is what is read under its key, so where something is said of it
  -- something is read
  have hread : ∀ {α : Type} {g : α → Option Held} {o : Option α} {f : Field},
      f.said? env ms = o.map g → ∃ a, o = some a := by
    intro α g o f ho
    obtain ⟨x, hx⟩ := h f
    obtain ⟨a, ha, -⟩ := Option.map_eq_some_iff.1 (ho.symm.trans hx)
    exact ⟨a, ha⟩
  obtain ⟨enabled, henabled⟩ := hread hsaid.enabled
  obtain ⟨executable, hexecutable⟩ := hread hsaid.executable
  obtain ⟨path, hpath⟩ := hread hsaid.configPath
  obtain ⟨version, hversion⟩ := hread hsaid.targetVersion
  obtain ⟨noqa, hnoqa⟩ := hread hsaid.useNoqa
  obtain ⟨mark, hmark⟩ := hread hsaid.markUnmatched
  obtain ⟨magic, hmagic⟩ := hread hsaid.allowMagic
  obtain ⟨select, hselect⟩ := hread hsaid.select
  obtain ⟨ignore, hignore⟩ := hread hsaid.ignore
  obtain ⟨fixable, hfixable⟩ := hread hsaid.fixable
  obtain ⟨unfixable, hunfixable⟩ := hread hsaid.unfixable
  obtain ⟨error, herror⟩ := hread hsaid.error
  obtain ⟨warning, hwarning⟩ := hread hsaid.warning
  obtain ⟨info, hinfo⟩ := hread hsaid.info
  obtain ⟨timeout, htimeout⟩ := hread hsaid.timeout
  obtain ⟨output, houtput⟩ := hread hsaid.output
  refine ⟨{
    enabled, executable := env.expandString executable
    configPath := path.map fun s => fromHome env (env.expandString s)
    targetVersion := version, useNoqa := noqa, markUnmatched := mark, allowMagic := magic
    select, ignore, fixable, unfixable, cascade := ⟨error, warning, info⟩
    limits := ⟨timeout, output⟩ }, ofMembers?_eq_some_iff.2 ?_⟩
  exact {
    named := named?_eq_some_iff.2 hroot
    enabled := henabled
    executable := ⟨executable, hexecutable, rfl⟩
    configPath := ⟨path, hpath, rfl⟩
    targetVersion := hversion
    useNoqa := hnoqa
    markUnmatched := hmark
    allowMagic := hmagic
    select := hselect
    ignore := hignore
    fixable := hfixable
    unfixable := hunfixable
    cascade := (keyed_cascade_iff (hms _ (by decide))).2 ⟨hseverity, herror, hwarning, hinfo⟩
    limits := (keyed_limits_iff (hms _ (by decide))).2 ⟨hprocess, htimeout, houtput⟩ }

/-- **Settings are given field by field**, where the sections are tables. -/
theorem ofMembers?_eq_some_iff_said (hms : HasSections ms) : ofMembers? env ms = some c ↔
    Usable (unknowns ms) ∧ ∀ f : Field, f.said? env ms = some (f.get c) := by
  have hfields : ∀ {d}, Says env ms d → ∀ f : Field, f.said? env ms = some (f.get d) := by
    intro d hd f
    refine hd.said? fun name hname => hms name ?_
    cases f <;> cases hname <;> decide
  constructor
  · intro h
    have hc := ofMembers?_eq_some_iff.1 h
    exact ⟨hc.usable hms, hfields hc⟩
  · rintro ⟨hu, h⟩
    obtain ⟨d, hd⟩ := exists_of_said hms hu fun f => ⟨_, h f⟩
    -- the settings that are given say the same of each field, so they are these
    have hsame := hfields (ofMembers?_eq_some_iff.1 hd)
    rw [hd, eq_of_fields fun f => Option.some.inj ((h f).symm.trans (hsame f))]

end LintHost.Settings
