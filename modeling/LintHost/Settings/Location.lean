/-
LintHost/Settings/Location.lean

Where the settings are kept: the host's own file under the home directory, and the
analyzer's configuration file under the directory for user configuration.  The host's own
file need not exist, and then the defaults hold; a file that is named must.
-/
import LintHost.Settings.Reading
import LintHost.Storage.Replace

namespace LintHost.Settings

open Storage

/-- The host's own settings file. -/
def file? (env : Environment) : Option Path :=
  env.home?.map fun home => (home.join ⟨".ruffline"⟩).join ⟨"config.toml"⟩

/-- The directory for user configuration: the one that is set, if it is absolute, else the
usual one under the home directory. -/
def userDirectory? (env : Environment) : Option Path :=
  match (env.get? "XDG_CONFIG_HOME").map Path.mk with
  | some dir => if dir.isAbsolute then some dir else env.home?.map (·.join ⟨".config"⟩)
  | none => env.home?.map (·.join ⟨".config"⟩)

/-- The analyzer's configuration file. -/
def analyzerFile? (env : Environment) : Option Path :=
  (userDirectory? env).map fun dir => (dir.join ⟨"ruff"⟩).join ⟨"pyproject.toml"⟩

/-! ### Loading -/

/-- Why settings cannot be loaded or changed. -/
inductive Trouble where
  | read (file : Path) (fault : Fault)
  /-- The file holds no settings. -/
  | parse (file : Path)
  /-- The file is no TOML. -/
  | edit (file : Path)
  | write (file : Path) (fault : Fault)
  | noHome
  deriving DecidableEq, Repr

namespace Trouble

/-- What lies behind trouble.  Where in a text TOML breaks off is not told. -/
def cause? : Trouble → Option String
  | read _ fault | write _ fault => some fault.message
  | parse _ | edit _ => some "<toml>"
  | noHome => none

/-- The file that trouble is about. -/
def file? : Trouble → Option Path
  | read file _ | parse file | edit file | write file _ => some file
  | noHome => none

/-- The text shown for trouble. -/
def message (t : Trouble) : String :=
  let about (doing : String) (file : Path) : String :=
    "failed to " ++ doing ++ " config at " ++ file.text ++ ": " ++ t.cause?.getD ""
  match t with
  | read file _ => about "read" file
  | parse file => about "parse" file
  | edit file => about "edit" file
  | write file _ => about "write" file
  | noHome => "could not determine home directory"

end Trouble

/-- Loads settings from a file. -/
def loadFrom (env : Environment) (file : Path) : Plan (Except Trouble Settings) := do
  match ← readText file with
  | .error fault => return .error (.read file fault)
  | .ok text =>
    match read? env text.toList with
    | none => return .error (.parse file)
    | some s => return .ok s

/-- Loads settings from the usual file, if there is one. -/
def load (env : Environment) : Plan (Except Trouble Settings) := do
  match file? env with
  | none => return .ok {}
  | some file => if ← Plan.request (.isThere file) then loadFrom env file else return .ok {}

end LintHost.Settings
