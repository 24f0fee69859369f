/-
LintHost/Settings/Basic.lean

The settings of a linting host: which analyzer it runs and with what limits, what
it asks of the analyzer, and how it classifies and shows what comes back.  Every
field has a default of its own, so that settings are written down by what differs.
-/
import LintHost.Finding.Basic

namespace LintHost

/-- Bounds on one run of the analyzer. -/
structure Limits where
  timeoutSeconds : UInt64 := 100
  maxOutputBytes : UInt64 := 104857600
  deriving DecidableEq, Repr, Inhabited

/-- The settings of a linting host. -/
structure Settings where
  /-- Whether files are linted at all. -/
  enabled : Bool := true
  /-- The analyzer, by name or by path. -/
  executable : String := "ruff"
  /-- The analyzer's own configuration file. -/
  configPath : Option Path := none
  targetVersion : Option String := none
  /-- Whether the analyzer honours suppression comments. -/
  useNoqa : Bool := true
  /-- Whether codes that no list matches are marked. -/
  markUnmatched : Bool := true
  /-- Whether interactive syntax is masked before analysis. -/
  allowMagic : Bool := false
  select : List String := []
  ignore : List String := []
  fixable : List String := []
  unfixable : List String := []
  cascade : Cascade := {}
  limits : Limits := {}
  deriving DecidableEq, Repr, Inhabited

namespace Settings

/-- How findings are classified under the settings. -/
def policy (s : Settings) : Policy :=
  ⟨s.cascade, s.markUnmatched⟩

/-! ### Switches -/

/-- The two settings that can be switched over in place. -/
inductive Switch where
  | enabled
  | useNoqa
  deriving DecidableEq, Repr, Inhabited

/-- The key under which a switch is stored. -/
def Switch.key : Switch → String
  | .enabled => "enabled"
  | .useNoqa => "use_noqa"

/-- The position of a switch. -/
def get (s : Settings) : Switch → Bool
  | .enabled => s.enabled
  | .useNoqa => s.useNoqa

/-- The settings with one switch in the given position. -/
def set (s : Settings) (on : Bool) : Switch → Settings
  | .enabled => { s with enabled := on }
  | .useNoqa => { s with useNoqa := on }

end Settings

end LintHost
