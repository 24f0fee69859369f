/-
LintHost/Settings/Toggle.lean

Turning a setting over, in the text that stores it and in the file that holds this text.
Whatever is not a truth value counts as switched on, as does a missing key.  A file that does
not exist is made, with the directory it stands in.
-/
import LintHost.Settings.Location
import LintHost.Toml.Document

namespace LintHost.Settings

open Storage

/-- The position of a switch in a root table. -/
def Switch.position (w : Switch) (members : List (String × Toml.Value)) : Bool :=
  match members.lookup w.key with
  | some (.boolean on) => on
  | _ => true

/-- The text with a switch turned over, and its new position; none if the text is no TOML
or holds numbers that cannot be used. -/
def toggle? (w : Switch) (s : List Char) : Option (Bool × List Char) := do
  let d ← Toml.Document.read s
  if !Toml.membersWithin .narrow d.values then none
  let on := !w.position d.values
  return (on, (d.setRoot w.key on).print)

/-! ### In place -/

/-- The text of a file that need not exist. -/
def currentText (file : Path) : Plan (Except Fault String) := do
  if ← Plan.request (.isThere file) then readText file else return .ok ""

/-- Makes the directory of a file. -/
def makeParent (file : Path) : Plan (Except Fault Unit) :=
  match file.directory? with
  | none => .done (.ok ())
  | some directory => .request (.makeDirectories directory)

/-- Turns a switch over in a file, which is made if it does not exist.  The result is the new
position of the switch. -/
def toggleIn (file : Path) (w : Switch) : Plan (Except Trouble Bool) := do
  match ← makeParent file with
  | .error fault => return .error (.write file fault)
  | .ok () =>
    match ← currentText file with
    | .error fault => return .error (.read file fault)
    | .ok text =>
      match toggle? w text.toList with
      | none => return .error (.edit file)
      | some (on, edited) =>
        match ← replace file (Text.encode edited) with
        | .error fault => return .error (.write file fault)
        | .ok () => return .ok on

end LintHost.Settings
