/-
LintHost/Command/Basic.lean

The commands of the host, and how they are given on a command line.  The verbosity
and the settings file may be given before or after the name of a command; of two
levels that give one of them the lower one counts.
-/
import LintHost.Command.Grammar
import LintHost.Settings.Basic

namespace LintHost

/-- What the host is asked to do. -/
inductive Action where
  /-- Show the diagnostics of a file, as lines or as JSON. -/
  | check (file : Path) (json : Bool)
  /-- Fix a file, or show what would change. -/
  | fix (file : Path) (diff : Bool)
  /-- Format a file or some of its lines, or show what would change. -/
  | format (file : Path) (lines : Option LineRange) (diff : Bool)
  /-- Scan roots, and lint some files as if they were open. -/
  | scan (roots opened : List Path) (json : Bool)
  /-- Show where the settings are kept. -/
  | settingsPath
  /-- Show where the analyzer's configuration is kept. -/
  | analyzerPath
  /-- Turn a switch over. -/
  | toggle (switch : Settings.Switch)
  deriving DecidableEq, Repr

/-- A command. -/
structure Command where
  /-- How often more messages were asked for, at most 255 times. -/
  verbosity : Nat
  /-- The settings file, where another one than usual is to be read. -/
  settingsFile : Option Path
  action : Action
  deriving DecidableEq, Repr

namespace Command

/-! ### Grammar -/

/-- Any text but the empty one. -/
def checkPath : Check := fun s =>
  if s = "" then some .invalidValue else none

/-- A range of lines. -/
def checkLines : Check := fun s =>
  match LineRange.read s with
  | .ok _ => none
  | .error fault => some (.invalidRange fault)

/-- The names of the switches on the command line. -/
def switches : List (String × Settings.Switch) :=
  [("enabled", .enabled), ("noqa", .useNoqa)]

/-- The name of a switch. -/
def checkSwitch : Check := fun s =>
  if (switches.lookup s).isSome then none else some .invalidValue

/-- The options that every command has. -/
def commonOptions : List OptionRule := [
  { name := "verbose", letter := some 'v', kind := .count },
  { name := "config", kind := .value false checkPath },
  { name := "help", letter := some 'h', kind := .help },
  { name := "version", letter := some 'V', kind := .version }]

/-- An option without value. -/
def flag (name : String) : OptionRule :=
  { name, kind := .flag }

/-- A command without commands below it. -/
def leaf (options : List OptionRule) (operand : Option OperandRule) : Grammar :=
  .mk (commonOptions ++ options) operand []

/-- The file that a command is about. -/
def fileOperand : OperandRule :=
  { name := "file", check := checkPath }

/-- The grammar of the host's command line. -/
def grammar : Grammar :=
  .mk commonOptions none [
    ("check", leaf [flag "json"] (some fileOperand)),
    ("fix", leaf [flag "diff"] (some fileOperand)),
    ("format", leaf [{ name := "lines", kind := .value false checkLines }, flag "diff"]
      (some fileOperand)),
    ("scan", leaf [{ name := "open", kind := .value true checkPath }, flag "json"]
      (some { name := "roots", many := true, check := checkPath })),
    ("config", .mk commonOptions none [
      ("path", leaf [] none),
      ("ruff-path", leaf [] none),
      ("toggle", leaf [] (some { name := "setting", check := checkSwitch }))])]

/-! ### Reading -/

open Grammar (Arguments valuesOf isGiven)

/-- The first value of an argument as a path. -/
def pathOf (seen : Arguments) (name : String) : Option Path :=
  (valuesOf seen name).head?.map Path.mk

/-- The action with a given name and arguments. -/
def actionOf : List String → Arguments → Option Action
  | ["check"], seen => do return .check (← pathOf seen "file") (isGiven seen "json")
  | ["fix"], seen => do return .fix (← pathOf seen "file") (isGiven seen "diff")
  | ["format"], seen => do
    let lines := (valuesOf seen "lines").head?.bind fun s => (LineRange.read s).toOption
    return .format (← pathOf seen "file") lines (isGiven seen "diff")
  | ["scan"], seen =>
    some (.scan ((valuesOf seen "roots").map Path.mk) ((valuesOf seen "open").map Path.mk)
      (isGiven seen "json"))
  | ["config", "path"], _ => some .settingsPath
  | ["config", "ruff-path"], _ => some .analyzerPath
  | ["config", "toggle"], seen => do
    return .toggle (← switches.lookup (← (valuesOf seen "setting").head?))
  | _, _ => none

/-- The values of an option at the lowest level that gives it. -/
def lowest (name : String) (levels : List Arguments) : List String :=
  ((levels.reverse.map fun seen => valuesOf seen name).find? (· ≠ [])).getD []

/-- Reads a command from the words of a command line. -/
def read (words : List String) : Except Usage Command := do
  let (top, below) ← grammar.read words
  let levels := top :: below.map (·.2)
  match actionOf (below.map (·.1)) (levels.getLast?.getD []) with
  | none => throw .missingCommand
  | some action =>
    return {
      verbosity := min 255 (lowest "verbose" levels).length
      settingsFile := (lowest "config" levels).head?.map Path.mk
      action }

end Command

end LintHost
