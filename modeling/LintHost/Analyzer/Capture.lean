/-
LintHost/Analyzer/Capture.lean

Collecting what a process writes.  Both of its streams come in pieces, in any order
among each other.  A stream is kept as long as it is within the limit; the first
piece that takes one over the limit ends the run.  After both streams have ended,
anything on the error stream counts before the way in which the process ended.
Main facts: what is kept of a stream is the pieces of that stream put together
(`kept_receiveAll`).
-/
import LintHost.Analyzer.Failure
import LintHost.Text.Classes
import LintHost.Text.Utf8

namespace LintHost.Analyzer

/-- The two streams that a process writes. -/
inductive Channel where
  | output
  | errors
  deriving DecidableEq, Repr, Inhabited

/-- What has been kept of the two streams. -/
structure Capture where
  output : List UInt8 := []
  errors : List UInt8 := []
  deriving DecidableEq, Repr, Inhabited

namespace Capture

/-- What has been kept of a stream. -/
def kept (c : Capture) : Channel → List UInt8
  | .output => c.output
  | .errors => c.errors

/-- Adds a piece to a stream. -/
def append (c : Capture) (piece : List UInt8) : Channel → Capture
  | .output => { c with output := c.output ++ piece }
  | .errors => { c with errors := c.errors ++ piece }

/-- Receives a piece; none if its stream grows over the limit. -/
def receive (limit : Nat) (c : Capture) (p : Channel × List UInt8) : Option Capture :=
  if limit < (c.kept p.1).length + p.2.length then none else some (c.append p.2 p.1)

/-- Receives pieces one after the other. -/
def receiveAll (limit : Nat) (c : Capture) (pieces : List (Channel × List UInt8)) :
    Option Capture :=
  pieces.foldlM (receive limit) c

/-- The pieces of one stream. -/
def ofChannel (channel : Channel) (pieces : List (Channel × List UInt8)) : List UInt8 :=
  (pieces.filter fun p => p.1 = channel).flatMap (·.2)

theorem kept_append (c : Capture) (piece : List UInt8) (a b : Channel) :
    (c.append piece a).kept b = if a = b then c.kept b ++ piece else c.kept b := by
  cases a <;> cases b <;> rfl

theorem kept_receiveAll {limit : Nat} {c d : Capture} {pieces : List (Channel × List UInt8)}
    (h : receiveAll limit c pieces = some d) (channel : Channel) :
    d.kept channel = c.kept channel ++ ofChannel channel pieces := by
  unfold receiveAll at h
  induction pieces generalizing c with
  | nil =>
    cases h
    simp [ofChannel]
  | cons p rest ih =>
    simp only [List.foldlM_cons, Option.bind_eq_bind, Option.bind_eq_some_iff] at h
    obtain ⟨e, he, hr⟩ := h
    have hk := ih hr
    simp only [receive, Option.ite_none_left_eq_some, Option.some.injEq] at he
    rw [hk, ← he.2, kept_append]
    by_cases hp : p.1 = channel <;> simp [ofChannel, hp]

end Capture

/-! ### Outcomes -/

/-- What a process wrote, and how it ended. -/
structure Output where
  text : String
  status : Status
  deriving DecidableEq, Repr

/-- The outcome of a run whose streams were kept in full. -/
def outcome (program : String) (c : Capture) (status : Status) : Except Failure Output :=
  if c.errors ≠ [] then
    .error (.complaint program (String.ofList (Text.trim (Text.decodeLossy c.errors))))
  else if status.isAccepted then .ok ⟨String.ofList (Text.decodeLossy c.output), status⟩
  else .error (.status program status)

/-- The outcome of a run from the pieces of its streams. -/
def collect (program : String) (limit : Nat) (pieces : List (Channel × List UInt8))
    (status : Status) : Except Failure Output :=
  match Capture.receiveAll limit {} pieces with
  | none => .error (.overflow program limit)
  | some c => outcome program c status

end LintHost.Analyzer
