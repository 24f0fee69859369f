/-
LintHost/Proofs/Settings/Independence.lean

Fields do not touch each other.  A text that is edited in some fields and under keys that are
not known gives the same settings but for these fields (`Edited.exists_settings`): a field that
is set holds what it is set to, one that is taken out has its default, and no other field is
changed (`fields_are_independent`).  Of the environment only the analyzer and its configuration
file depend.

Two things are looked at where no field is said: numbers under keys that are not known, which
must be such as can be used, and dates, which stand for empty sections
(`settings_look_beyond_fields`).
-/
import LintHost.Proofs.Settings.Fields

namespace LintHost.Settings

open Toml (Value TablesAlike)

variable {env : Environment} {ms ms' : List (String × Value)} {c : Settings}
  {changed : Field → Prop} {f : Field}

/-! ### Edits -/

/-- Whether a root table is another one edited in nothing but some fields, what is under keys that
are not known, and the order of members. -/
structure Edited (changed : Field → Prop) (ms ms' : List (String × Value)) : Prop where
  sections : HasSections ms'
  kept : ∀ f, ¬changed f → Option.Rel Value.Alike (f.find? ms) (f.find? ms')
  /-- What comes to stand under keys that are not known can be used. -/
  fresh : ∀ w ∈ unknowns ms', w.isWithin .wide = true ∨ ∃ v ∈ unknowns ms, v.Alike w

/-- Whether settings are the same but for some fields. -/
def SameBut (changed : Field → Prop) (c c' : Settings) : Prop :=
  ∀ f : Field, ¬changed f → f.get c' = f.get c

theorem Edited.usable (h : Edited changed ms ms') (hu : Usable (unknowns ms)) :
    Usable (unknowns ms') := by
  intro w hw
  obtain hwithin | ⟨v, hv, hvw⟩ := h.fresh w hw
  · exact hwithin
  · exact hvw.isWithin (hu v hv)

/-- Of a field that is not changed the same is said. -/
theorem Edited.said? (h : Edited changed ms ms') (hf : ¬changed f) {x : Option Held}
    (hx : f.said? env ms = some x) : f.said? env ms' = some x := by
  have hkept := h.kept f hf
  unfold Field.said? at hx ⊢
  generalize f.find? ms = old at hkept hx
  generalize f.find? ms' = new at hkept
  cases hkept with
  | none => exact hx
  | some hvw =>
    obtain ⟨a, ha, rfl⟩ := Option.map_eq_some_iff.1 hx
    exact Option.map_eq_some_iff.2 ⟨a, f.kind.steadfast_read hvw ha, rfl⟩

/-- **An edit changes nothing but the fields it is made in**, if it says something of each. -/
theorem Edited.exists_settings (h : Edited changed ms ms') (hms : HasSections ms)
    (hc : ofMembers? env ms = some c) (hsaid : ∀ f, changed f → ∃ x, f.said? env ms' = some x) :
    ∃ c', ofMembers? env ms' = some c' ∧ SameBut changed c c' ∧
      ∀ f : Field, f.said? env ms' = some (f.get c') := by
  obtain ⟨hu, hold⟩ := (ofMembers?_eq_some_iff_said hms).1 hc
  -- something is said of each field: of the changed ones by assumption, of the others as before
  obtain ⟨c', hc'⟩ := exists_of_said h.sections (h.usable hu) fun f => by
    by_cases hf : changed f
    · exact hsaid f hf
    · exact ⟨_, h.said? hf (hold f)⟩
  have hnew := ((ofMembers?_eq_some_iff_said h.sections).1 hc').2
  refine ⟨c', hc', fun f hf => ?_, hnew⟩
  exact Option.some.inj ((hnew f).symm.trans (h.said? hf (hold f)))

/-- An edit in one field makes it hold what is said of it. -/
theorem Edited.exists_settings_with (h : Edited (· = f) ms ms') (hms : HasSections ms)
    (hc : ofMembers? env ms = some c) {x : Option Held} (hsaid : f.said? env ms' = some x) :
    ∃ c', ofMembers? env ms' = some c' ∧ f.get c' = x ∧ SameBut (· = f) c c' := by
  obtain ⟨c', hc', hsame, hnew⟩ := h.exists_settings hms hc fun g hg => ⟨x, hg ▸ hsaid⟩
  exact ⟨c', hc', Option.some.inj ((hnew f).symm.trans hsaid), hsame⟩

theorem Field.said?_of_none (h : f.find? ms = none) : f.said? env ms = some (f.get {}) := by
  rw [Field.said?, h]

theorem Field.said?_of_value {a : Content} (h : f.find? ms = some a.value) (ha : a.kind = f.kind) :
    f.said? env ms = some (some (f.finish env a)) := by
  rw [Field.said?, h]
  exact Option.map_eq_some_iff.2 ⟨a, Kind.read_eq_some_iff.2 ⟨ha, rfl⟩, rfl⟩

theorem Content.alike_self (a : Content) : a.value.Alike a.value := by
  cases a with
  | texts items =>
    refine Toml.alike_array.2 ⟨_, rfl, List.forall₂_same.2 fun v hv => ?_⟩
    obtain ⟨t, -, rfl⟩ := List.mem_map.1 hv
    exact (Toml.alike_scalar (by simp) (by simp)).2 rfl
  | _ => exact (Toml.alike_scalar (by simp [Content.value]) (by simp [Content.value])).2 rfl

/-- Fields are kept where the values under their keys are the same. -/
theorem edited_of_find? (hms : HasSections ms) (hc : ofMembers? env ms = some c)
    (hms' : HasSections ms') (hu : Usable (unknowns ms'))
    (hkept : ∀ f, ¬changed f → f.find? ms' = f.find? ms) : Edited changed ms ms' where
  sections := hms'
  kept f hf := by
    -- a value of a field that is known says the content by which it is given, so it is like itself
    have hsaid := ((ofMembers?_eq_some_iff_said hms).1 hc).2 f
    rw [hkept f hf]
    unfold Field.said? at hsaid
    cases hfind : f.find? ms with
    | none => exact .none
    | some v =>
      rw [hfind] at hsaid
      obtain ⟨a, ha, -⟩ := Option.map_eq_some_iff.1 hsaid
      rw [(Kind.read_eq_some_iff.1 ha).2]
      exact .some a.alike_self
  fresh w hw := Or.inl (hu w hw)

/-! ### Order -/

/-- The order of members says nothing. -/
theorem ofMembers?_alike (h : TablesAlike ms ms') (hc : ofMembers? env ms = some c) :
    ofMembers? env ms' = some c := by
  have hsays := ofMembers?_eq_some_iff.1 hc
  have henabled := keyed_alike steadfast_boolean (rel_lookup h _) hsays.enabled
  have hnoqa := keyed_alike steadfast_boolean (rel_lookup h _) hsays.useNoqa
  refine ofMembers?_eq_some_iff.2 ?_
  exact hsays.replace (named?_alike h hsays.named) henabled hnoqa fun name _ _ => rel_lookup h name

/-! ### Wrong values -/

/-- A value of the wrong kind under the key of a field refuses the whole. -/
theorem ofMembers?_of_wrong {v : Value} (hv : f.find? ms = some v)
    (hwrong : ∀ a : Content, a.kind = f.kind → v ≠ a.value) : ofMembers? env ms = none := by
  have hsection : ∀ name, f.section? = some name → IsSection name ms := by
    -- the field would not be found if there were no table
    intro name hname w hw
    simp only [Field.find?, Field.members, hname, sectionOf, hw] at hv
    cases w with
    | table members => exact ⟨members, rfl⟩
    | _ => cases hv
  rw [Option.eq_none_iff_forall_ne_some]
  intro c hc
  have hsaid := (ofMembers?_eq_some_iff.1 hc).said? hsection
  rw [Field.said?, hv] at hsaid
  obtain ⟨a, ha, -⟩ := Option.map_eq_some_iff.1 hsaid
  obtain ⟨hkind, rfl⟩ := Kind.read_eq_some_iff.1 ha
  exact hwrong a hkind rfl

/-- Whether fields could be given in a value, by name or in order. -/
def HoldsFields : Value → Bool
  | .table _ | .array _ | .date _ => true
  | _ => false

theorem fields?_eq_none {names : List String} {v : Value} (h : HoldsFields v = false) :
    fields? names v = none := by
  cases v <;> first | rfl | cases h

/-- A value that holds no fields in place of a section refuses the whole. -/
theorem ofMembers?_of_no_section {name : String} (hname : name ∈ ["severity", "process"])
    {v : Value} (hv : ms.lookup name = some v) (h : HoldsFields v = false) :
    ofMembers? env ms = none := by
  rw [Option.eq_none_iff_forall_ne_some]
  intro c hc
  have hsays := ofMembers?_eq_some_iff.1 hc
  simp only [List.mem_cons, List.not_mem_nil, or_false] at hname
  obtain rfl | rfl := hname
  · have hcascade := hsays.cascade
    rw [keyed, hv] at hcascade
    simp only [cascade?, fields?_eq_none h] at hcascade
    cases hcascade
  · have hlimits := hsays.limits
    rw [keyed, hv] at hlimits
    simp only [limits?, fields?_eq_none h] at hlimits
    cases hlimits

/-! ### The environment -/

theorem fromHome_of_home {s : String} {home : Path} {rest : List Char}
    (hhome : env.home? = some home) (hs : s.toList = '~' :: '/' :: rest) : fromHome env s = home.join ⟨String.ofList rest⟩ := by
  rw [fromHome, hs]
  simp only [hhome]

theorem fromHome_of_not {s : String} (h : env.home? = none ∨ ¬['~', '/'] <+: s.toList) :
    fromHome env s = ⟨s⟩ := by
  unfold fromHome
  split
  · next rest hs =>
    obtain hhome | hs' := h
    · rw [hhome]
    · exact absurd ⟨rest, hs.symm⟩ hs'
  · rfl

/-- In another environment settings differ in the analyzer and its configuration file at most. -/
theorem Says.in_environment (h : Says env ms c) (env' : Environment) :
    ∃ c', Says env' ms c' ∧
      SameBut (fun f => f = .executable ∨ f = .configPath) c c' ∧
      (∀ t, Field.executable.find? ms = some (.string t) →
        c'.executable = env'.expandString t) ∧
      ∀ t, Field.configPath.find? ms = some (.string t) →
        c'.configPath = some (fromHome env' (env'.expandString t)) := by
  obtain ⟨executable, hexecutable, -⟩ := h.executable
  obtain ⟨path, hpath, -⟩ := h.configPath
  refine ⟨{ c with
    executable := env'.expandString executable
    configPath := path.map fun s => fromHome env' (env'.expandString s) }, ?_, ?_, ?_, ?_⟩
  · exact { h with
      executable := ⟨executable, hexecutable, rfl⟩
      configPath := ⟨path, hpath, rfl⟩ }
  · intro f hf
    cases f with
    | executable => exact absurd (Or.inl rfl) hf
    | configPath => exact absurd (Or.inr rfl) hf
    | _ => rfl
  · intro t ht
    change ms.lookup "executable" = some (.string t) at ht
    rw [keyed, ht] at hexecutable
    cases hexecutable
    rfl
  · intro t ht
    change ms.lookup "config_path" = some (.string t) at ht
    rw [keyed, ht] at hpath
    cases hpath
    rfl

/-! ### Independence -/

variable {s : List Char}

/-- The fields of settings are independent.  Setting a field to a content of its kind makes it hold
that content and changes no other field; taking its key out gives it its default and changes no
other; a section can be written anew as a whole.  Neither keys that are not known nor the order of
members change anything.  A value of the wrong kind under a known key refuses the whole text.  Of
the environment only the analyzer and its configuration file depend, and only the latter, once
expanded, is looked for in the home directory. -/
theorem fields_are_independent (hs : Toml.membersOf? s = some ms) (hms : HasSections ms)
    (hc : read? env s = some c) :
    (∀ s' ms', Toml.membersOf? s' = some ms' →
      (∀ (f : Field) (a : Content), a.kind = f.kind → Edited (· = f) ms ms' →
        f.find? ms' = some a.value →
        ∃ c', read? env s' = some c' ∧ f.get c' = some (f.finish env a) ∧ SameBut (· = f) c c') ∧
      (∀ f : Field, Edited (· = f) ms ms' → f.find? ms' = none →
        ∃ c', read? env s' = some c' ∧ f.get c' = f.get {} ∧ SameBut (· = f) c c') ∧
      (∀ name, Edited (·.section? = some name) ms ms' →
        (∀ f : Field, f.section? = some name → ∃ x, f.said? env ms' = some x) →
        ∃ c', read? env s' = some c' ∧ SameBut (·.section? = some name) c c' ∧
          ∀ f : Field, f.section? = some name → f.said? env ms' = some (f.get c')) ∧
      (Edited (fun _ => False) ms ms' → read? env s' = some c) ∧
      (TablesAlike ms ms' → read? env s' = some c) ∧
      (∀ (f : Field) v, f.find? ms' = some v → (∀ a : Content, a.kind = f.kind → v ≠ a.value) →
        read? env s' = none) ∧
      (∀ name ∈ ["severity", "process"], ∀ v, ms'.lookup name = some v → HoldsFields v = false →
        read? env s' = none)) ∧
    (∀ env', ∃ c', read? env' s = some c' ∧
      SameBut (fun f => f = .executable ∨ f = .configPath) c c' ∧
      (∀ t, Field.executable.find? ms = some (.string t) →
        c'.executable = env'.expandString t) ∧
      (∀ t, Field.configPath.find? ms = some (.string t) →
        (∀ home rest, env'.home? = some home →
          (env'.expandString t).toList = '~' :: '/' :: rest →
          c'.configPath = some (home.join ⟨String.ofList rest⟩)) ∧
        (env'.home? = none ∨ ¬['~', '/'] <+: (env'.expandString t).toList →
          c'.configPath = some ⟨env'.expandString t⟩))) := by
  have hread : ∀ {env s ms}, Toml.membersOf? s = some ms → read? env s = ofMembers? env ms :=
    fun h => by rw [read?, h]; rfl
  rw [hread hs] at hc
  refine ⟨fun s' ms' hs' => ?_, fun env' => ?_⟩
  · rw [hread hs']
    refine ⟨fun f a ha hedit hfind => ?_, fun f hedit hfind => ?_, fun name hedit hsaid => ?_,
      fun hedit => ?_, fun hall => ofMembers?_alike hall hc, fun f v => ofMembers?_of_wrong,
      fun name hname v => ofMembers?_of_no_section hname⟩
    · exact hedit.exists_settings_with hms hc (Field.said?_of_value hfind ha)
    · exact hedit.exists_settings_with hms hc (Field.said?_of_none hfind)
    · obtain ⟨c', hc', hsame, hnew⟩ := hedit.exists_settings hms hc hsaid
      exact ⟨c', hc', hsame, fun f _ => hnew f⟩
    · obtain ⟨c', hc', hsame, -⟩ := hedit.exists_settings hms hc nofun
      rw [hc', eq_of_fields fun f => hsame f id]
  · obtain ⟨c', hc', hsame, hexecutable, hpath⟩ := (ofMembers?_eq_some_iff.1 hc).in_environment env'
    rw [hread hs]
    refine ⟨c', ofMembers?_eq_some_iff.2 hc', hsame, hexecutable, fun t ht => ⟨?_, fun hnot => ?_⟩⟩
    · intro home rest hhome hrest
      rw [hpath t ht, fromHome_of_home hhome hrest]
    · rw [hpath t ht, fromHome_of_not hnot]

/-- The members of the commented text. -/
def commentedMembers : List (String × Value) :=
  [("use_noqa", .boolean false), ("severity", .table [("error", .array [.string "E"])])]

theorem hasSections_commented : HasSections commentedMembers := by
  simp [HasSections, IsSection, commentedMembers, List.lookup]

theorem ofMembers?_commented : ofMembers? { values := [] } commentedMembers
    = some { useNoqa := false, cascade := { error := ["E"] } } :=
  (ofMembers?_eq_some_iff_said hasSections_commented).2
    ⟨by unfold Usable; decide, fun f => by cases f <;> rfl⟩

/-- The commented text with one more list in its section, and with members that are not known. -/
def extended : List Char :=
  "use_noqa = false\n[severity]\nwarning = [\"X\"]\nerror = [\"E\"]\nx = 1\n[tool]\ny = []\n".toList

/-- The members of the extended text. -/
def extendedMembers : List (String × Value) :=
  [("use_noqa", .boolean false),
    ("severity", .table [("warning", .array [.string "X"]), ("error", .array [.string "E"]),
      ("x", .integer 1)]),
    ("tool", .table [("y", .array [])])]

theorem membersOf?_extended : Toml.membersOf? extended = some extendedMembers := by
  cbv

theorem edited_extended : Edited (· = .warning) commentedMembers extendedMembers :=
  edited_of_find? hasSections_commented ofMembers?_commented
    (by simp [HasSections, IsSection, extendedMembers, List.lookup]) (by unfold Usable; decide)
    fun f hf => by cases f <;> first | exact absurd rfl hf | rfl

/-- In the commented text the list of warnings is set, and unknown members are added. -/
theorem fields_are_independent_extended :
    Toml.membersOf? commented = some commentedMembers ∧ HasSections commentedMembers ∧
      read? { values := [] } commented
        = some { useNoqa := false, cascade := { error := ["E"] } } ∧
      read? { values := [] } extended
        = some { useNoqa := false, cascade := { error := ["E"], warning := ["X"] } } := by
  have hread : read? { values := [] } commented
      = some { useNoqa := false, cascade := { error := ["E"] } } :=
    Option.bind_eq_some_iff.2 ⟨_, membersOf?_commented, ofMembers?_commented⟩
  obtain ⟨hedits, -⟩ := fields_are_independent membersOf?_commented hasSections_commented hread
  obtain ⟨c', hc', hwarning, hsame⟩ :=
    (hedits _ _ membersOf?_extended).1 .warning (.texts ["X"]) rfl edited_extended rfl
  refine ⟨membersOf?_commented, hasSections_commented, hread, hc'.trans (congrArg some ?_)⟩
  refine eq_of_fields fun f => ?_
  by_cases hf : f = .warning
  · rw [hf, hwarning]
    rfl
  · rw [hsame f hf]
    cases f <;> first | exact absurd rfl hf | rfl

/-- A text with a float that is no finite 64-bit one under a key that is not known. -/
def overflowing : List Char :=
  "x = 1e400\n".toList

theorem membersOf?_overflowing : Toml.membersOf? overflowing = some [("x", .float (some
    { whole := ['1'], exponent := some (false, ['4', '0', '0']) }))] := by
  cbv

/-- A text with a date in place of a section. -/
def dated : List Char :=
  "severity = 1979-05-27\n".toList

theorem membersOf?_dated :
    Toml.membersOf? dated = some [("severity", .date "1979-05-27".toList)] := by
  cbv

/-- An empty text gives the defaults, and one that adds nothing but a key that is not known is
refused if there is a number under it that cannot be used; a text with a date in place of a section
is not refused. -/
theorem settings_look_beyond_fields :
    Toml.membersOf? [] = some [] ∧ read? { values := [] } [] = some {} ∧
      Toml.membersOf? overflowing = some [("x", .float (some
        { whole := ['1'], exponent := some (false, ['4', '0', '0']) }))] ∧
      "x" ∉ keys ∧ read? { values := [] } overflowing = none ∧
      Toml.membersOf? dated = some [("severity", .date "1979-05-27".toList)] ∧
      read? { values := [] } dated = some {} := by
  refine ⟨membersOf?_nil, read?_nil _, membersOf?_overflowing, by decide, ?_, membersOf?_dated, ?_⟩
  · rw [read?, membersOf?_overflowing]
    rfl
  · refine Option.bind_eq_some_iff.2 ⟨_, membersOf?_dated, ofMembers?_eq_some_iff.2 ?_⟩
    exact ⟨rfl, rfl, ⟨"ruff", rfl, (expandString_ruff _).symm⟩, ⟨none, rfl, rfl⟩, rfl, rfl, rfl,
      rfl, rfl, rfl, rfl, rfl, rfl, rfl⟩

end LintHost.Settings
