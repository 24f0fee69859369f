/-
LintHost/Host/Plan.lean

What commands ask of the machine they run on.  A plan has its result, or it names one
request and what to do with the answer.  All that a command does to files, and every
run of the analyzer, is a request; so a plan can be carried out on a real disk, on a
described one, or on one that fails wherever a proof wants it to.
Main facts: plans are put together in order (`bind_assoc`).
-/
import LintHost.Analyzer.Consult
import LintHost.Storage.Fault

namespace LintHost

open Analyzer Storage

/-- One request to the machine. -/
inductive Request where
  /-- The content of a file. -/
  | read (file : Path)
  /-- Whether there is anything at a path. -/
  | isThere (file : Path)
  /-- Make a directory and those above it, as far as they are missing. -/
  | makeDirectories (directory : Path)
  /-- Make a new empty file with a name of its own in a directory. -/
  | makeTemporary (directory : Path)
  /-- Write the content of a file and see it onto the disk. -/
  | write (file : Path) (content : List UInt8)
  /-- The permissions of a file. -/
  | permissions (file : Path)
  /-- Set the permissions of a file. -/
  | setPermissions (file : Path) (mode : Nat)
  /-- Put a file in the place of another path, at once. -/
  | rename (file target : Path)
  /-- Remove a file. -/
  | remove (file : Path)
  /-- Run the analyzer. -/
  | run (call : Invocation)
  deriving Repr

/-- The answers to a request. -/
abbrev Request.Answer : Request → Type
  | read _ => Except Fault (List UInt8)
  | isThere _ => Bool
  | makeDirectories _ => Except Fault Unit
  | makeTemporary _ => Except Fault Path
  | write _ _ => Except Fault Unit
  | permissions _ => Except Fault Nat
  | setPermissions _ _ => Except Fault Unit
  | rename _ _ => Except Fault Unit
  | remove _ => Unit
  | run _ => Reply

/-- A computation that makes requests. -/
inductive Plan (α : Type) where
  | done (a : α)
  | ask (r : Request) (next : r.Answer → Plan α)

namespace Plan

variable {α β γ : Type}

/-- Goes on with the result. -/
def bind (p : Plan α) (f : α → Plan β) : Plan β :=
  match p with
  | done a => f a
  | ask r next => ask r fun answer => (next answer).bind f

instance : Monad Plan where
  pure := done
  bind := bind

theorem bind_assoc (p : Plan α) (f : α → Plan β) (g : β → Plan γ) :
    (p.bind f).bind g = p.bind fun a => (f a).bind g := by
  induction p with
  | done a => rfl
  | ask r next ih => simp only [bind, ih]

/-- Makes one request. -/
def request (r : Request) : Plan r.Answer :=
  ask r done

/-- A consultation, with every run of the analyzer as a request. -/
def consult : Consult α → Plan α
  | .done a => .done a
  | .ask call next => .ask (.run call) fun reply => consult (next reply)

end Plan

/-- Plans that may fail. -/
abbrev Attempt (ε α : Type) := ExceptT ε Plan α

end LintHost
