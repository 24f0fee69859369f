/-
LintHost/Settings/Reading.lean

Reading settings from TOML.  A missing key leaves its default and an unknown one is
ignored, but a known key with a value of the wrong kind refuses the whole, and so does
a number under an unknown key that cannot be used.  The severities and the limits may
also be written as the list of their fields in order, which may end early or go on;
what goes on is not looked at.  The analyzer and its configuration file may refer to
environment variables, and the file may be given from the home directory on.
-/
import LintHost.Environment
import LintHost.Settings.Basic
import LintHost.Toml.Document

namespace LintHost.Settings

open Toml (Value)

/-- The kinds of value that settings have. -/
abbrev Decode (α : Type) := Value → Option α

/-- A truth value. -/
def boolean : Decode Bool
  | .boolean b => some b
  | _ => none

/-- A text. -/
def string : Decode String
  | .string s => some s
  | _ => none

/-- A list of texts. -/
def strings : Decode (List String)
  | .array items => items.mapM string
  | _ => none

/-- A non-negative 64-bit word. -/
def word : Decode UInt64
  | .integer n => if 0 ≤ n ∧ n < UInt64.size then some (UInt64.ofNat n.toNat) else none
  | _ => none

/-- The value of a key, its default if the key is missing, nothing if it is of another kind. -/
def keyed {α : Type} (members : List (String × Value)) (name : String) (decode : Decode α)
    (default : α) : Option α :=
  match members.lookup name with
  | none => some default
  | some v => decode v

/-- The members of a table with known names, if all numbers under other names can be used. -/
def named? (names : List String) (members : List (String × Value)) :
    Option (List (String × Value)) :=
  if Toml.membersWithin .wide (members.filter fun m => !names.contains m.1) then some members
  else none

/-- The fields of a section, given by name or in order.  A date has no field that is known. -/
def fields? (names : List String) : Decode (List (String × Value))
  | .table members => named? names members
  | .array items => some (names.zip items)
  | .date _ => some []
  | _ => none

/-- The section with the severities. -/
def cascade? : Decode Cascade := fun v => do
  let fields ← fields? ["error", "warning", "info"] v
  let base : Cascade := {}
  return {
    error := ← keyed fields "error" strings base.error
    warning := ← keyed fields "warning" strings base.warning
    info := ← keyed fields "info" strings base.info }

/-- The section with the limits. -/
def limits? : Decode Limits := fun v => do
  let fields ← fields? ["timeout_secs", "max_output_bytes"] v
  let base : Limits := {}
  return {
    timeoutSeconds := ← keyed fields "timeout_secs" word base.timeoutSeconds
    maxOutputBytes := ← keyed fields "max_output_bytes" word base.maxOutputBytes }

/-- A path whose leading `~/` stands for the home directory. -/
def fromHome (env : Environment) (s : String) : Path :=
  match s.toList with
  | '~' :: '/' :: rest =>
    match env.home? with
    | some home => home.join ⟨String.ofList rest⟩
    | none => ⟨s⟩
  | _ => ⟨s⟩

/-- The keys that settings have. -/
def keys : List String :=
  ["enabled", "executable", "config_path", "target_version", "use_noqa", "mark_uncategorized",
    "allow_magic", "select", "ignore", "fixable", "unfixable", "severity", "process"]

/-- The settings that the members of a root table give. -/
def ofMembers? (env : Environment) (members : List (String × Value)) : Option Settings := do
  let members ← named? keys members
  let base : Settings := {}
  let executable ← keyed members "executable" string base.executable
  let configPath ← keyed members "config_path" (fun v => (string v).map some) none
  return {
    enabled := ← keyed members "enabled" boolean base.enabled
    executable := env.expandString executable
    configPath := configPath.map fun s => fromHome env (env.expandString s)
    targetVersion := ← keyed members "target_version" (fun v => (string v).map some) none
    useNoqa := ← keyed members "use_noqa" boolean base.useNoqa
    markUnmatched := ← keyed members "mark_uncategorized" boolean base.markUnmatched
    allowMagic := ← keyed members "allow_magic" boolean base.allowMagic
    select := ← keyed members "select" strings base.select
    ignore := ← keyed members "ignore" strings base.ignore
    fixable := ← keyed members "fixable" strings base.fixable
    unfixable := ← keyed members "unfixable" strings base.unfixable
    cascade := ← keyed members "severity" cascade? base.cascade
    limits := ← keyed members "process" limits? base.limits }

/-- Reads settings from a text. -/
def read? (env : Environment) (s : List Char) : Option Settings := do
  ofMembers? env (← Toml.membersOf? s)

end LintHost.Settings
