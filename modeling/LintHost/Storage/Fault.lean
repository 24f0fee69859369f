/-
LintHost/Storage/Fault.lean

Why a file cannot be read or written.
-/

namespace LintHost.Storage

/-- Why the file system refuses. -/
inductive Fault where
  | missing
  | alreadyExists
  | notDirectory
  | isDirectory
  | nameTooLong
  /-- The last step of the path is `.` or `..`, where an entry is to be put. -/
  | busy
  /-- A name holds the character that ends names. -/
  | nulInName
  /-- No entry can be put under such a name. -/
  | invalidArgument
  /-- The content is no text. -/
  | notText
  /-- Another reason, in its own words. -/
  | other (text : String)
  deriving DecidableEq, Repr, Inhabited

/-- The text of a reason with its number. -/
def numbered (text : String) (number : Nat) : String :=
  text ++ " (os error " ++ toString number ++ ")"

/-- The text shown for a fault. -/
def Fault.message : Fault → String
  | missing => numbered "No such file or directory" 2
  | busy => numbered "Device or resource busy" 16
  | alreadyExists => numbered "File exists" 17
  | notDirectory => numbered "Not a directory" 20
  | isDirectory => numbered "Is a directory" 21
  | invalidArgument => numbered "Invalid argument" 22
  | nameTooLong => numbered "File name too long" 36
  | nulInName => "file name contained an unexpected NUL byte"
  | notText => "stream did not contain valid UTF-8"
  | other text => text

end LintHost.Storage
