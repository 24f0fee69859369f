/-
LintHost/Proofs/Analyzer/Recovery.lean

What the arguments of a check tell.  They are the target and a row of options, each of
which begins in its own way and is left out if it is at its default (`checkArguments_eq`).
No option begins as another one goes on, so that each of them is found by how it begins,
whatever stands in the values of the others (`valueIn?_given`).  A list of codes is found in
its value as long as there is no comma in a code (`codesOf_joined`).

Main result: all that a check is asked for can be told from its arguments, and two checks
have the same arguments exactly if they are asked for the same (`arguments_tell_settings`).
-/
import LintHost.Analyzer.Arguments
import LintHost.Proofs.Text.Raw

namespace LintHost.Analyzer

/-! ### Options -/

/-- The arguments that give options.  Of each option it is known how it begins, and its value if it
is given. -/
def given (options : List (String × Option String)) : List String :=
  options.flatMap fun o => o.2.toList.map (o.1 ++ ·)

/-- What stands behind a beginning of a text. -/
def behind? (start text : String) : Option String :=
  if start.toList <+: text.toList then
    some (String.ofList (text.toList.drop start.toList.length))
  else none

/-- The value of the first option that begins in a given way. -/
def valueIn? (start : String) (arguments : List String) : Option String :=
  arguments.findSome? (behind? start)

/-- Whether neither of two texts goes on as the other one. -/
def Apart (a b : String) : Prop :=
  ¬a.toList <+: b.toList ∧ ¬b.toList <+: a.toList

instance (a b : String) : Decidable (Apart a b) :=
  inferInstanceAs (Decidable (_ ∧ _))

theorem Apart.symm {a b : String} (h : Apart a b) : Apart b a :=
  ⟨h.2, h.1⟩

@[simp] theorem behind?_append (start value : String) :
    behind? start (start ++ value) = some value := by
  rw [behind?, String.toList_append, if_pos (List.prefix_append _ _), List.drop_left,
    String.ofList_toList]

/-- A text that begins in one way does not begin in another one. -/
theorem behind?_append_of_apart {a b : String} (h : Apart a b) (value : String) :
    behind? a (b ++ value) = none := by
  refine if_neg fun hprefix => ?_
  rw [String.toList_append] at hprefix
  rcases List.prefix_or_prefix_of_prefix hprefix (List.prefix_append b.toList value.toList)
    with hab | hba
  · exact h.1 hab
  · exact h.2 hba

theorem valueIn?_eq_none {start : String} {options : List (String × Option String)}
    (h : ∀ o ∈ options, Apart start o.1) : valueIn? start (given options) = none := by
  rw [valueIn?, List.findSome?_eq_none_iff]
  intro argument ha
  obtain ⟨o, ho, ha⟩ := List.mem_flatMap.1 ha
  obtain ⟨value, -, rfl⟩ := List.mem_map.1 ha
  exact behind?_append_of_apart (h o ho) value

/-- **Options are told from each other** if none of them begins as another one goes on. -/
theorem valueIn?_given {options : List (String × Option String)}
    (h : options.Pairwise fun o p => Apart o.1 p.1) {o : String × Option String}
    (ho : o ∈ options) : valueIn? o.1 (given options) = o.2 := by
  induction options with
  | nil => cases ho
  | cons first more ih =>
    obtain ⟨hfirst, hmore⟩ := List.pairwise_cons.1 h
    have hsplit : given (first :: more) = first.2.toList.map (first.1 ++ ·) ++ given more := rfl
    rw [hsplit, valueIn?, List.findSome?_append]
    change (List.findSome? (behind? o.1) _).or (valueIn? o.1 (given more)) = o.2
    rcases List.mem_cons.1 ho with rfl | hin
    · rw [valueIn?_eq_none hfirst, Option.or_none]
      cases o.2 with
      | none => rfl
      | some value => simp
    · rw [ih hmore hin]
      have hnone := behind?_append_of_apart (hfirst o hin).symm
      cases first.2 with
      | none => rfl
      | some value => simp [hnone]

/-! ### Lists of codes -/

/-- The value that a list of codes has, if it is given. -/
def joined (codes : List String) : Option String :=
  if codes = [] then none else some (String.intercalate "," codes)

/-- The codes in a value, if it is given. -/
def codesOf : Option String → List String
  | none => []
  | some value => (value.toList.splitOn ',').map String.ofList

/-- A list of codes is found in its value, unless there is a comma in a code. -/
theorem codesOf_joined {codes : List String} (h : ∀ code ∈ codes, ',' ∉ code.toList) :
    codesOf (joined codes) = codes := by
  rw [joined]
  split
  · next hnil => rw [hnil]; rfl
  · next hne =>
    have hparts : ∀ part ∈ codes.map String.toList, ',' ∉ part := by
      simpa using h
    have hmap : codes.map String.toList ≠ [] := by simpa using hne
    rw [codesOf, String.toList_intercalate]
    change ((List.splitOn ',' ([','].intercalate _)).map String.ofList) = codes
    rw [List.splitOn_intercalate ',' hparts hmap, List.map_map]
    simp [Function.comp_def]

theorem codesOption_eq (name : String) (codes : List String) :
    codesOption name codes = (joined codes).toList.map (("--" ++ name ++ "=") ++ ·) := by
  cases codes with
  | nil => rfl
  | cons code codes => rfl

/-! ### Checks -/

/-- Whether a target is a text, and not a root. -/
def Target.isText : Target → Bool
  | .text _ => true
  | .root _ => false

/-- The path of a target. -/
def Target.path : Target → Path
  | .text file => file
  | .root directory => directory

/-- What a check is asked for.  It makes no difference whether no version is named or an empty
one. -/
structure Asked where
  target : String
  configFile : Option String
  select : List String
  ignore : List String
  fixable : List String
  unfixable : List String
  useNoqa : Bool
  targetVersion : String
  fix : Bool
  deriving DecidableEq, Repr

/-- What a check under some settings is asked for. -/
def asked (s : Settings) (target : Target) (fix : Bool) : Asked where
  target := target.path.text
  configFile := s.configPath.map Path.text
  select := s.select
  ignore := s.ignore
  fixable := s.fixable
  unfixable := s.unfixable
  useNoqa := s.useNoqa
  targetVersion := s.targetVersion.getD ""
  fix := fix

/-- The options of a check.  A switch has no text behind the way it begins. -/
def Asked.options (a : Asked) : List (String × Option String) := [
  ("--config=", a.configFile),
  ("--select=", joined a.select),
  ("--ignore=", joined a.ignore),
  ("--fixable=", joined a.fixable),
  ("--unfixable=", joined a.unfixable),
  ("--ignore-noqa", if a.useNoqa then none else some ""),
  ("--target-version=", if a.targetVersion = "" then none else some a.targetVersion),
  ("--fix-only", if a.fix then some "" else none)]

/-- How a target is given. -/
def targetStart (isText : Bool) : String :=
  if isText then "--stdin-filename=" else ""

theorem argument_eq (target : Target) :
    target.argument = targetStart target.isText ++ target.path.text := by
  cases target with
  | text file => rfl
  | root directory => exact (String.empty_append).symm

/-- **The arguments of a check** are the target, in its place, and the options. -/
theorem checkArguments_eq (s : Settings) (target : Target) (fix : Bool) :
    checkArguments s target fix = ["check", "--quiet", "--output-format=json",
      targetStart target.isText ++ (asked s target fix).target]
        ++ given (asked s target fix).options := by
  have hversion : (s.targetVersion.toList.filter (· ≠ "")).map ("--target-version=" ++ ·)
      = (if s.targetVersion.getD "" = "" then none else some (s.targetVersion.getD "")).toList.map
        ("--target-version=" ++ ·) := by
    cases s.targetVersion with
    | none => rfl
    | some version =>
      by_cases h : version = ""
      · simp [h]
      · simp [h]
  have hnoqa : (if s.useNoqa then [] else ["--ignore-noqa"])
      = (if s.useNoqa then none else some "").toList.map ("--ignore-noqa" ++ ·) := by
    cases s.useNoqa <;> rfl
  have hfix : (if fix then ["--fix-only"] else [])
      = (if fix then some "" else none).toList.map ("--fix-only" ++ ·) := by
    cases fix <;> rfl
  have hconfig : s.configPath.toList.map (fun p => "--config=" ++ p.text)
      = (s.configPath.map Path.text).toList.map ("--config=" ++ ·) := by
    cases s.configPath <;> rfl
  rw [checkArguments, argument_eq, hversion, hnoqa, hfix, hconfig]
  simp only [codesOption_eq, given, Asked.options, List.flatMap_cons, List.flatMap_nil,
    List.append_nil, List.append_assoc]
  rfl

/-- No option of a check begins as another one goes on. -/
theorem pairwise_options (a : Asked) : a.options.Pairwise fun o p => Apart o.1 p.1 := by
  have hstarts : (a.options.map Prod.fst).Pairwise Apart := by
    show List.Pairwise Apart ["--config=", "--select=", "--ignore=", "--fixable=", "--unfixable=",
      "--ignore-noqa", "--target-version=", "--fix-only"]
    decide
  exact List.pairwise_map.1 hstarts

/-- What a check is asked for, as it is told from its arguments: the target stands in its place,
and each option is found by how it begins. -/
def recover (isText : Bool) (arguments : List String) : Asked :=
  let value? (start : String) := valueIn? start (arguments.drop 4)
  { target := (behind? (targetStart isText) (arguments[3]?.getD "")).getD ""
    configFile := value? "--config="
    select := codesOf (value? "--select=")
    ignore := codesOf (value? "--ignore=")
    fixable := codesOf (value? "--fixable=")
    unfixable := codesOf (value? "--unfixable=")
    useNoqa := (value? "--ignore-noqa").isNone
    targetVersion := (value? "--target-version=").getD ""
    fix := (value? "--fix-only").isSome }

/-- Whether there is no comma in a code of any list. -/
def Asked.HasPlainCodes (a : Asked) : Prop :=
  ∀ codes ∈ [a.select, a.ignore, a.fixable, a.unfixable], ∀ code ∈ codes, ',' ∉ code.toList

instance (a : Asked) : Decidable a.HasPlainCodes :=
  inferInstanceAs (Decidable (∀ codes ∈ _, ∀ code ∈ codes, _))

/-- **What a check is asked for is told from its arguments.** -/
theorem recover_checkArguments {s : Settings} {target : Target} {fix : Bool}
    (h : (asked s target fix).HasPlainCodes) :
    recover target.isText (checkArguments s target fix) = asked s target fix := by
  rw [checkArguments_eq]
  generalize asked s target fix = a at h
  have hvalue : ∀ o ∈ a.options, valueIn? o.1 (given a.options) = o.2 := fun o ho =>
    valueIn?_given (pairwise_options a) ho
  generalize given a.options = arguments at hvalue
  simp only [Asked.options, List.forall_mem_cons] at hvalue
  obtain ⟨hconfig, hselect, hignore, hfixable, hunfixable, hnoqa, hversion, hfix, -⟩ := hvalue
  simp only [Asked.HasPlainCodes, List.forall_mem_cons] at h
  obtain ⟨hs, hi, hf, hu, -⟩ := h
  have hswitch : ∀ on : Bool, (if on then none else some "").isNone = on ∧
      (if on then some "" else none).isSome = on := by decide
  have hname : (if a.targetVersion = "" then none else some a.targetVersion).getD ""
      = a.targetVersion := by
    split
    · next hempty => exact hempty.symm
    · rfl
  simp only [recover, List.cons_append, List.nil_append, List.drop_succ_cons, List.drop_zero,
    List.getElem?_cons_succ, List.getElem?_cons_zero, Option.getD_some, behind?_append, hconfig,
    hselect, hignore, hfixable, hunfixable, hnoqa, hversion, hfix, codesOf_joined hs,
    codesOf_joined hi, codesOf_joined hf, codesOf_joined hu, hswitch, hname]

/-- **The arguments of a check tell what it is asked for.**  All of it can be told from them, as
long as there is no comma in a code.  Two checks of the same kind of target have the same arguments
exactly if they have the same paths of target and configuration file, the same lists of codes, and
the same positions of the switches, and name the same version, where an empty one is none. -/
theorem arguments_tell_settings (s : Settings) (target : Target) (fix : Bool)
    (h : (asked s target fix).HasPlainCodes) :
    recover target.isText (checkArguments s target fix) = asked s target fix ∧
    ∀ s' target' fix', (asked s' target' fix').HasPlainCodes → target'.isText = target.isText →
      (checkArguments s' target' fix' = checkArguments s target fix ↔
        target'.path.text = target.path.text ∧
        s'.configPath.map Path.text = s.configPath.map Path.text ∧ fix' = fix ∧
        s'.useNoqa = s.useNoqa ∧ s'.targetVersion.getD "" = s.targetVersion.getD "" ∧
        s'.select = s.select ∧ s'.ignore = s.ignore ∧ s'.fixable = s.fixable ∧
        s'.unfixable = s.unfixable) := by
  have hrecover := recover_checkArguments h
  refine ⟨hrecover, fun s' target' fix' h' hkind => ?_⟩
  have hrecover' := recover_checkArguments h'
  constructor
  · intro heq
    rw [heq, hkind, hrecover] at hrecover'
    simp only [asked, Asked.mk.injEq] at hrecover'
    obtain ⟨htarget, hconfig, hselect, hignore, hfixable, hunfixable, hnoqa, hversion, hfix⟩ :=
      hrecover'
    exact ⟨htarget.symm, hconfig.symm, hfix.symm, hnoqa.symm, hversion.symm, hselect.symm,
      hignore.symm, hfixable.symm, hunfixable.symm⟩
  · rintro ⟨htarget, hconfig, rfl, hnoqa, hversion, hselect, hignore, hfixable, hunfixable⟩
    have hasked : asked s' target' fix' = asked s target fix' := by
      simp only [asked, htarget, hconfig, hnoqa, hversion, hselect, hignore, hfixable, hunfixable]
    rw [checkArguments_eq, checkArguments_eq, hkind, hasked]

/-- A root and a file that look like options, a code without text, and an empty version. -/
theorem arguments_tell_settings_of_lookalikes :
    let s : Settings := {
      configPath := some ⟨"--fix-only"⟩, select := ["E", ""], useNoqa := false
      targetVersion := some "" }
    let root := Target.root ⟨"--select=W"⟩
    recover false ["check", "--quiet", "--output-format=json", "--select=W", "--config=--fix-only",
        "--select=E,", "--ignore-noqa", "--fix-only"]
      = ⟨"--select=W", some "--fix-only", ["E", ""], [], [], [], false, "", true⟩ ∧
    checkArguments { s with targetVersion := none } root true = checkArguments s root true ∧
    checkArguments { s with select := ["E"] } root true ≠ checkArguments s root true := by
  intro s root
  have hplain : (asked s root true).HasPlainCodes := by decide
  have hplain' : (asked { s with select := ["E"] } root true).HasPlainCodes := by decide
  obtain ⟨hrecover, hsame⟩ := arguments_tell_settings s root true hplain
  have htarget : root.argument = "--select=W" := RawText.text_ofString _
  have hconfig : Path.text ⟨"--fix-only"⟩ = "--fix-only" := RawText.text_ofString _
  have harguments : checkArguments s root true = ["check", "--quiet", "--output-format=json",
      "--select=W", "--config=--fix-only", "--select=E,", "--ignore-noqa", "--fix-only"] := by
    rw [checkArguments, htarget]
    show _ ++ ["--config=" ++ Path.text ⟨"--fix-only"⟩] ++ _ ++ _ ++ _ ++ _ ++ _ ++ _ ++ _ = _
    rw [hconfig]
    decide
  have hasked : asked s root true
      = ⟨"--select=W", some "--fix-only", ["E", ""], [], [], [], false, "", true⟩ := by
    show Asked.mk root.argument (some (Path.text ⟨"--fix-only"⟩)) _ _ _ _ _ _ _ = _
    rw [htarget, hconfig]
    rfl
  rw [harguments, hasked] at hrecover
  have hversion := hsame { s with targetVersion := none } root true hplain rfl
  refine ⟨hrecover, hversion.2 ⟨rfl, rfl, rfl, rfl, rfl, rfl, rfl, rfl, rfl⟩, fun heq => ?_⟩
  obtain ⟨-, -, -, -, -, hselect, -⟩ := (hsame _ root true hplain' rfl).1 heq
  cases hselect

end LintHost.Analyzer
