/-
LintHost/Proofs/Host/Outcomes.lean

What plans can come to, whatever their requests are answered.  Any content of any file
and any reply of the analyzer is allowed, also answers that do not fit together; so
what holds of all results of a plan holds on every machine (`Machine.comesTo_run`).  A
plan of two in a row comes to what the second comes to from a result of the first
(`comesTo_bind_iff`), and an attempt succeeds only by successes
(`comesTo_attempt_bind_iff`), also on one machine (`Machine.run_attempt_bind_iff`).
-/
import LintHost.Host.Machine

namespace LintHost

variable {α β γ ε σ : Type}

/-- Whether a plan can come to a result: some answers to its requests lead there. -/
def Plan.ComesTo : Plan α → α → Prop
  | .done a, b => b = a
  | .ask r next, b => ∃ answer : r.Answer, (next answer).ComesTo b

theorem comesTo_bind_iff {p : Plan α} {f : α → Plan β} {b : β} :
    (p >>= f).ComesTo b ↔ ∃ a, p.ComesTo a ∧ (f a).ComesTo b := by
  show (p.bind f).ComesTo b ↔ _
  induction p with
  | done a =>
    constructor
    · intro h
      exact ⟨a, rfl, h⟩
    · rintro ⟨_, rfl, h⟩
      exact h
  | ask r next ih =>
    constructor
    · rintro ⟨answer, h⟩
      obtain ⟨a, ha, hb⟩ := (ih answer).1 h
      exact ⟨a, ⟨answer, ha⟩, hb⟩
    · rintro ⟨a, ⟨answer, ha⟩, hb⟩
      exact ⟨answer, (ih answer).2 ⟨a, ha, hb⟩⟩

/-- An attempt that goes on succeeds only if both parts do. -/
theorem comesTo_attempt_bind_iff {x : Attempt ε α} {f : α → Attempt ε β} {b : β} :
    (x >>= f).run.ComesTo (.ok b) ↔ ∃ a, x.run.ComesTo (.ok a) ∧ (f a).run.ComesTo (.ok b) := by
  show (x.run >>= fun a => ExceptT.bindCont f a).ComesTo (.ok b) ↔ _
  rw [comesTo_bind_iff]
  constructor
  · rintro ⟨a, ha, hb⟩
    cases a with
    | error fault => cases hb
    | ok a => exact ⟨a, ha, hb⟩
  · rintro ⟨a, ha, hb⟩
    exact ⟨.ok a, ha, hb⟩

/-- A plan that cannot fail, among those that may. -/
theorem comesTo_lift_iff {p : Plan α} {a : α} :
    (ExceptT.lift p : Attempt ε α).run.ComesTo (.ok a) ↔ p.ComesTo a := by
  show (p >>= fun a => Plan.done (Except.ok a)).ComesTo (.ok a) ↔ _
  rw [comesTo_bind_iff]
  constructor
  · rintro ⟨b, ha, hb⟩
    have hb : Except.ok (ε := ε) a = .ok b := hb
    obtain rfl := Except.ok.inj hb
    exact ha
  · intro ha
    exact ⟨a, ha, rfl⟩

/-- Attempts in a row may be grouped in either way. -/
theorem attempt_bind_assoc (x : Attempt ε α) (f : α → Attempt ε β) (g : β → Attempt ε γ) :
    x >>= f >>= g = x >>= fun a => f a >>= g := by
  show Plan.bind (Plan.bind x (ExceptT.bindCont f)) (ExceptT.bindCont g)
    = Plan.bind x (ExceptT.bindCont fun a => f a >>= g)
  rw [Plan.bind_assoc]
  congr 1
  funext a
  cases a with
  | error fault => rfl
  | ok a => rfl

/-- Consultations in a row are plans in a row. -/
theorem Plan.consult_then (k : Analyzer.Consult α) (f : α → Analyzer.Consult β) :
    Plan.consult (k >>= f) = Plan.consult k >>= fun a => Plan.consult (f a) := by
  show Plan.consult (k.bind f) = (Plan.consult k).bind fun a => Plan.consult (f a)
  induction k with
  | done a => rfl
  | ask call next ih => exact congrArg (Plan.ask _) (funext ih)

/-- What a machine comes to is one of the results. -/
theorem Machine.comesTo_run (m : Machine σ) (p : Plan α) : p.ComesTo (m.run p).1 := by
  induction p generalizing m with
  | done a => rfl
  | ask r next ih => exact ⟨(m.answer r).1, ih _ _⟩

theorem Machine.run_lift (m : Machine σ) (p : Plan α) :
    m.run (ExceptT.lift p : Attempt ε α).run = (.ok (m.run p).1, (m.run p).2) :=
  Machine.run_bind m p _

/-- An attempt that goes on is carried out in order, as far as it does not fail. -/
theorem Machine.run_attempt_bind (m : Machine σ) (x : Attempt ε α) (f : α → Attempt ε β) :
    m.run (x >>= f).run = match m.run x.run with
      | (.ok a, m₁) => m₁.run (f a).run
      | (.error fault, m₁) => (.error fault, m₁) := by
  show m.run (Plan.bind x (ExceptT.bindCont f)) = _
  rw [Machine.run_bind]
  show Machine.run (m.run x.run).2 (ExceptT.bindCont f (m.run x.run).1) = _
  rcases m.run x.run with ⟨_ | a, m₁⟩ <;> rfl

/-- An attempt that goes on succeeds on a machine only if both parts do, one after the other. -/
theorem Machine.run_attempt_bind_iff {m m' : Machine σ} {x : Attempt ε α} {f : α → Attempt ε β}
    {b : β} : m.run (x >>= f).run = (.ok b, m') ↔
      ∃ a m₁, m.run x.run = (.ok a, m₁) ∧ m₁.run (f a).run = (.ok b, m') := by
  rw [Machine.run_attempt_bind]
  rcases m.run x.run with ⟨_ | a, m₁⟩
  · constructor
    · intro h
      cases h
    · rintro ⟨_, _, h, -⟩
      cases h
  · constructor
    · intro h
      exact ⟨a, m₁, rfl, h⟩
    · rintro ⟨_, _, h, h'⟩
      cases h
      exact h'

end LintHost
