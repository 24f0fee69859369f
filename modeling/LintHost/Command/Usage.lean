/-
LintHost/Command/Usage.lean

Why a command line is not carried out: it is wrong, or it asks for help or for the
version.
-/
import LintHost.LineRange

namespace LintHost

/-- Why a command line is not carried out. -/
inductive Usage where
  /-- An operand that is needed is missing. -/
  | missingOperand
  /-- An option or an operand that the command does not have. -/
  | unknownArgument
  /-- A value that the argument does not take, or an option without its value. -/
  | invalidValue
  /-- A range of lines that is none. -/
  | invalidRange (fault : LineRange.Fault)
  /-- A value for an option that takes none. -/
  | surplusValue
  /-- An option that is given twice. -/
  | repeated
  /-- A command that does not exist. -/
  | unknownCommand
  /-- Options, but no command. -/
  | missingCommand
  /-- Nothing at all where a command is needed. -/
  | nothing
  /-- A request for help. -/
  | help
  /-- A request for the version. -/
  | version
  deriving DecidableEq, Repr

namespace Usage

/-- Whether the command line asks for something that is then shown. -/
def isRequest : Usage → Bool
  | help | version => true
  | _ => false

/-- The exit code: zero if the command line asks for what is shown. -/
def exitCode (u : Usage) : Nat :=
  if u.isRequest then 0 else 2

/-- What lies behind a wrong value, where it has a text of its own. -/
def cause? : Usage → Option String
  | invalidRange fault => some fault.message
  | _ => none

/-- The text shown in place of a result. -/
def message : Usage → String
  | missingOperand => "a required argument is missing"
  | unknownArgument => "unexpected argument"
  | invalidValue => "invalid value"
  | invalidRange fault => "invalid value: " ++ fault.message
  | surplusValue => "a value was given to an option that takes none"
  | repeated => "an option was given twice"
  | unknownCommand => "unrecognized command"
  | missingCommand | nothing => "a command is required"
  | help => "usage: check | fix | format | scan | config"
  | version => "version"

end Usage

end LintHost
