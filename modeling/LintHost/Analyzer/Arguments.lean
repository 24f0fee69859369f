/-
LintHost/Analyzer/Arguments.lean

The command lines given to the analyzer.  A check names either a file whose text
is given on standard input, or a root directory that the analyzer reads itself.
Settings that are at their default are left out, so that the analyzer's own
configuration decides.  Main fact: the target is always the fourth argument
(`check_target`).
-/
import LintHost.Settings.Basic

namespace LintHost.Analyzer

/-- What a check looks at. -/
inductive Target where
  /-- The text on standard input, to be treated as the named file. -/
  | text (file : Path)
  /-- The files below a directory. -/
  | root (directory : Path)
  deriving DecidableEq, Repr

/-- The argument that names the target. -/
def Target.argument : Target → String
  | .text file => "--stdin-filename=" ++ file.text
  | .root directory => directory.text

/-- An option that carries a list of codes; none if there are no codes. -/
def codesOption (name : String) : List String → List String
  | [] => []
  | codes => ["--" ++ name ++ "=" ++ String.intercalate "," codes]

/-- The arguments of a check. -/
def checkArguments (s : Settings) (target : Target) (fix : Bool) : List String :=
  ["check", "--quiet", "--output-format=json", target.argument]
    ++ s.configPath.toList.map (fun p => "--config=" ++ p.text)
    ++ codesOption "select" s.select
    ++ codesOption "ignore" s.ignore
    ++ codesOption "fixable" s.fixable
    ++ codesOption "unfixable" s.unfixable
    ++ (if s.useNoqa then [] else ["--ignore-noqa"])
    ++ (s.targetVersion.toList.filter (· ≠ "")).map ("--target-version=" ++ ·)
    ++ (if fix then ["--fix-only"] else [])

/-- The arguments of a formatting run. -/
def formatArguments (file : Path) : List String :=
  ["format", (Target.text file).argument, "--quiet"]

theorem check_target (s : Settings) (target : Target) (fix : Bool) :
    (checkArguments s target fix)[3]? = some target.argument := by
  simp [checkArguments]

end LintHost.Analyzer
