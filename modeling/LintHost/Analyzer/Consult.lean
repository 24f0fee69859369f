/-
LintHost/Analyzer/Consult.lean

Computations that may ask the analyzer on their way.  A consultation has its result,
or it names one run of the analyzer and what to do with the reply.  Whoever carries
it out answers the runs, from a process, a script or a proof.
Main facts: carrying out consultations one after the other answers the runs of the
first before those of the second (`run_bind`).
-/
import LintHost.Analyzer.Failure
import LintHost.Analyzer.Invocation

namespace LintHost.Analyzer

/-- A computation that may ask the analyzer. -/
inductive Consult (α : Type) where
  | done (a : α)
  | ask (call : Invocation) (next : Reply → Consult α)

namespace Consult

variable {α β σ : Type}

/-- Goes on with the result. -/
def bind (c : Consult α) (f : α → Consult β) : Consult β :=
  match c with
  | done a => f a
  | ask call next => ask call fun reply => (next reply).bind f

instance : Monad Consult where
  pure := done
  bind := bind

/-- Asks for one run. -/
def reply (call : Invocation) : Consult Reply :=
  ask call done

/-- The result, the runs asked for, and the last state of an analyzer that answers each run
from its state. -/
def run (analyzer : σ → Invocation → Reply × σ) (s : σ) : Consult α → α × List Invocation × σ
  | done a => (a, [], s)
  | ask call next =>
    let (reply, s) := analyzer s call
    let (a, calls, s) := run analyzer s (next reply)
    (a, call :: calls, s)

theorem run_bind (analyzer : σ → Invocation → Reply × σ) (s : σ) (c : Consult α)
    (f : α → Consult β) :
    run analyzer s (c.bind f)
      = let (a, calls, s) := run analyzer s c
        let (b, more, s) := run analyzer s (f a)
        (b, calls ++ more, s) := by
  induction c generalizing s with
  | done a => rfl
  | ask call next ih => simp [bind, run, ih]

end Consult

end LintHost.Analyzer
