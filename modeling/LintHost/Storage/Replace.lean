/-
LintHost/Storage/Replace.lean

Reading texts and replacing files.  A file is replaced by writing the new content
beside it and renaming, so that at no time half of it is to be seen at its path.  It
keeps the permissions that it had.  Where a step fails the new file is removed.
-/
import LintHost.Host.Plan
import LintHost.Text.Utf8

namespace LintHost.Storage

/-- The text in a file. -/
def readText (file : Path) : Plan (Except Fault String) := do
  match ← Plan.request (.read file) with
  | .error fault => return .error fault
  | .ok bytes =>
    match Text.decode? bytes with
    | none => return .error .notText
    | some text => return .ok (String.ofList text)

/-- The directory in which a file lies. -/
def directoryOf (file : Path) : Path :=
  file.directory?.getD ⟨"."⟩

/-- Fills a new file and puts it in the place of another one. -/
def fill (temporary file : Path) (content : List UInt8) : Plan (Except Fault Unit) := do
  match ← Plan.request (.write temporary content) with
  | .error fault => return .error fault
  | .ok () =>
    let kept ← match ← Plan.request (.permissions file) with
      | .error _ => pure (.ok ())
      | .ok mode => Plan.request (.setPermissions temporary mode)
    match kept with
    | .error fault => return .error fault
    | .ok () => Plan.request (.rename temporary file)

/-- Replaces the content of a file, or makes the file. -/
def replace (file : Path) (content : List UInt8) : Plan (Except Fault Unit) := do
  match ← Plan.request (.makeTemporary (directoryOf file)) with
  | .error fault => return .error fault
  | .ok temporary =>
    match ← fill temporary file content with
    | .ok () => return .ok ()
    | .error fault => do
      Plan.request (.remove temporary)
      return .error fault

/-- Replaces the content of a file by a text. -/
def replaceText (file : Path) (text : String) : Plan (Except Fault Unit) :=
  replace file (Text.encode text.toList)

end LintHost.Storage
