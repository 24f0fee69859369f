/-
LintHost/Proofs/Host/Mishaps.lean

Plans that are carried out where anything may go wrong.  Each request may be refused,
whether or not there is a reason on the disk, and a request that takes time may have
been carried out in part by then: some of the directories may have been made, and a
file that is being written may hold anything.  Three things are relied on.  Renaming
is done at once or not at all, removing a temporary file works, and a temporary file
does not get the path of the file that it is made for.

A run keeps a log of its stages, so that it can be said what was to be seen on the way
(`Seen`).  Main facts: the run of two plans in a row is cut where the second one starts
(`runs_bind_iff`), and a plan that only looks leaves the disk alone (`Runs.of_isStill`).
-/
import LintHost.Host.Plan
import LintHost.Storage.Disk

namespace LintHost

open Analyzer Storage

variable {α β ε : Type}

/-! ### Requests that may go wrong -/

/-- What a run depends on besides the disk. -/
structure World where
  /-- What the analyzer replies, on a disk that it may look at. -/
  analyzer : Disk → Invocation → Reply
  /-- The path that no temporary file gets. -/
  target : Path

/-- What a consultation comes to on a disk. -/
def World.consult (w : World) (d : Disk) (c : Consult α) : α :=
  (c.run (fun _ call => (w.analyzer d call, ())) ()).1

/-- What may be on a disk while a request is carried out. -/
def During (d : Disk) : Request → Disk → Prop
  | .write file _, x => x = d ∨ ∃ part, x = (d.write file part).2
  | .makeDirectories directory, x => x = d ∨ ∃ along k,
      Disk.segments directory = .ok along ∧
        x = (d.makeAlong (d.start directory) (along.take k)).2
  | _, x => x = d

/-- The answers that a request may get, each with the disk after it: the regular one, or a
refusal. -/
def Answers (w : World) (d : Disk) : (r : Request) → r.Answer → Disk → Prop
  | .read file, a, e => (a = d.read file ∨ ∃ fault, a = .error fault) ∧ e = d
  | .isThere file, a, e => (a = d.isThere file ∨ a = false) ∧ e = d
  | .makeDirectories directory, a, e => (a, e) = d.makeDirectories directory ∨
      (∃ fault, a = .error fault) ∧ During d (.makeDirectories directory) e
  | .makeTemporary _, a, e =>
      (∃ file t, a = .ok file ∧ d.find file = .ok t ∧ d.get? t = none ∧
        d.find w.target ≠ .ok t ∧ e = d.put t (.file [] Disk.newMode)) ∨
      (∃ fault, a = .error fault) ∧ e = d
  | .write file content, a, e => (a, e) = d.write file content ∨
      (∃ fault, a = .error fault) ∧ During d (.write file content) e
  | .permissions file, a, e => (a = d.permissions file ∨ ∃ fault, a = .error fault) ∧ e = d
  | .setPermissions file mode, a, e => (a, e) = d.setPermissions file mode ∨
      (∃ fault, a = .error fault) ∧ e = d
  | .rename file target, a, e => (a, e) = d.rename file target ∨
      (∃ fault, a = .error fault) ∧ e = d
  | .remove file, _, e => e = d.remove file
  | .run call, a, e => a = w.analyzer d call ∧ e = d

/-! ### Runs -/

/-- One request of a run: the disk before it, and its answer. -/
structure Stage where
  disk : Disk
  request : Request
  answer : request.Answer

/-- The runs of a plan on a disk: what is asked on the way, the result, and the disk after it. -/
def Runs (w : World) : Plan α → Disk → List Stage → α → Disk → Prop
  | .done a, d, log, b, e => log = [] ∧ b = a ∧ e = d
  | .ask r next, d, log, b, e => ∃ answer mid rest, log = ⟨d, r, answer⟩ :: rest ∧
      Answers w d r answer mid ∧ Runs w (next answer) mid rest b e

/-- Whether a disk is to be seen while some requests are carried out. -/
def Seen (log : List Stage) (x : Disk) : Prop :=
  ∃ s ∈ log, During s.disk s.request x

variable {w : World} {d e : Disk} {log before after : List Stage}

theorem seen_append {x : Disk} : Seen (before ++ after) x ↔ Seen before x ∨ Seen after x := by
  simp [Seen, or_and_right, exists_or]

theorem seen_cons {s : Stage} {x : Disk} :
    Seen (s :: log) x ↔ During s.disk s.request x ∨ Seen log x := by
  simp [Seen]

theorem not_seen_nil {x : Disk} : ¬Seen [] x := by
  simp [Seen]

/-- What is seen in one stage. -/
theorem seen_singleton {s : Stage} {x : Disk} : Seen [s] x ↔ During s.disk s.request x := by
  simp [Seen]

/-- What holds of all that is seen holds of it before a cut and behind it. -/
theorem forall_seen_append {P : Disk → Prop} :
    (∀ x, Seen (before ++ after) x → P x) ↔
      (∀ x, Seen before x → P x) ∧ ∀ x, Seen after x → P x := by
  simp only [seen_append, or_imp, forall_and]

/-- A run of two plans in a row is cut where the second one starts. -/
theorem runs_bind_iff {p : Plan α} {f : α → Plan β} {b : β} :
    Runs w (p >>= f) d log b e ↔ ∃ before after a mid, log = before ++ after ∧
      Runs w p d before a mid ∧ Runs w (f a) mid after b e := by
  show Runs w (p.bind f) d log b e ↔ _
  induction p generalizing d log with
  | done a =>
    constructor
    · intro h
      exact ⟨[], log, a, d, rfl, ⟨rfl, rfl, rfl⟩, h⟩
    · rintro ⟨_, after, _, _, rfl, ⟨rfl, rfl, rfl⟩, h⟩
      exact h
  | ask r next ih =>
    constructor
    · rintro ⟨answer, mid, rest, rfl, ha, h⟩
      obtain ⟨before, after, a, last, rfl, hp, hf⟩ := (ih answer).1 h
      exact ⟨⟨d, r, answer⟩ :: before, after, a, last, rfl, ⟨answer, mid, before, rfl, ha, hp⟩, hf⟩
    · rintro ⟨_, after, a, last, rfl, ⟨answer, mid, before, rfl, ha, hp⟩, hf⟩
      exact ⟨answer, mid, before ++ after, rfl, ha, (ih answer).2 ⟨_, _, a, last, rfl, hp, hf⟩⟩

/-- A plan whose result is put in another way. -/
theorem runs_map_iff {p : Plan α} {g : α → β} {b : β} :
    Runs w (p >>= fun a => .done (g a)) d log b e ↔ ∃ a, Runs w p d log a e ∧ b = g a := by
  rw [runs_bind_iff]
  constructor
  · rintro ⟨asked, _, a, mid, rfl, hp, rfl, rfl, rfl⟩
    rw [List.append_nil]
    exact ⟨a, hp, rfl⟩
  · rintro ⟨a, hp, rfl⟩
    exact ⟨log, [], a, e, (List.append_nil log).symm, hp, rfl, rfl, rfl⟩

/-- A plan that may fail and goes on only if it has not. -/
theorem runs_attempt_bind_iff {x : Attempt ε α} {f : α → Attempt ε β} {r : Except ε β} :
    Runs w (x >>= f).run d log r e ↔
      (∃ fault, r = .error fault ∧ Runs w x.run d log (.error fault) e) ∨
      ∃ before after a mid, log = before ++ after ∧ Runs w x.run d before (.ok a) mid ∧
        Runs w (f a).run mid after r e := by
  show Runs w (x.run >>= fun a => ExceptT.bindCont f a) d log r e ↔ _
  rw [runs_bind_iff]
  constructor
  · rintro ⟨before, after, a, mid, rfl, hx, h⟩
    cases a with
    | error fault =>
      obtain ⟨rfl, rfl, rfl⟩ := h
      rw [List.append_nil]
      exact .inl ⟨fault, rfl, hx⟩
    | ok a => exact .inr ⟨before, after, a, mid, rfl, hx, h⟩
  · rintro (⟨fault, rfl, hx⟩ | ⟨before, after, a, mid, rfl, hx, h⟩)
    · exact ⟨log, [], _, e, (List.append_nil log).symm, hx, rfl, rfl, rfl⟩
    · exact ⟨before, after, _, mid, rfl, hx, h⟩

/-- A plan may end as it may after an answer to its first request. -/
theorem exists_runs_ask {m : Disk} {r : Request} {a : r.Answer} {b : α} {next : r.Answer → Plan α}
    (ha : Answers w d r a m) (h : ∃ log e, Runs w (next a) m log b e) :
    ∃ log e, Runs w (.ask r next) d log b e := by
  obtain ⟨log, e, h⟩ := h
  exact ⟨⟨d, r, a⟩ :: log, e, a, m, log, rfl, ha, h⟩

theorem exists_runs_done (b : α) : ∃ log e, Runs w (.done b) d log b e :=
  ⟨[], d, rfl, rfl, rfl⟩

/-! ### Plans that only look -/

/-- Whether a request leaves the disk alone. -/
def Request.IsStill : Request → Prop
  | .read _ | .isThere _ | .permissions _ | .run _ => True
  | _ => False

/-- Whether a plan only looks at the disk and runs the analyzer. -/
def Plan.IsStill : Plan α → Prop
  | .done _ => True
  | .ask r next => r.IsStill ∧ ∀ a, (next a).IsStill

theorem Answers.of_isStill {r : Request} {a : r.Answer} (hr : r.IsStill)
    (h : Answers w d r a e) : e = d := by
  cases r <;> first | exact h.2 | exact hr.elim

theorem During.of_isStill {r : Request} {x : Disk} (hr : r.IsStill) (h : During d r x) :
    x = d := by
  cases r <;> first | exact h | exact hr.elim

theorem Plan.IsStill.bind {p : Plan α} {f : α → Plan β} (hp : p.IsStill)
    (hf : ∀ a, (f a).IsStill) : (p >>= f).IsStill := by
  show (p.bind f).IsStill
  induction p with
  | done a => exact hf a
  | ask r next ih => exact ⟨hp.1, fun a => ih a (hp.2 a)⟩

/-- A plan that only looks leaves the disk alone, at its end and on its way. -/
theorem Runs.of_isStill {p : Plan α} {a : α} (hp : p.IsStill) (h : Runs w p d log a e) :
    e = d ∧ ∀ x, Seen log x → x = d := by
  induction p generalizing d log with
  | done b =>
    obtain ⟨rfl, -, rfl⟩ := h
    exact ⟨rfl, fun x hx => (not_seen_nil hx).elim⟩
  | ask r next ih =>
    obtain ⟨answer, mid, rest, rfl, ha, h⟩ := h
    obtain rfl := ha.of_isStill hp.1
    obtain ⟨rfl, hseen⟩ := ih answer (hp.2 answer) h
    refine ⟨rfl, fun x hx => ?_⟩
    rcases seen_cons.1 hx with hx | hx
    · exact hx.of_isStill hp.1
    · exact hseen x hx

/-- A consultation asks the analyzer and nothing else. -/
theorem isStill_consult (c : Consult α) : (Plan.consult c).IsStill := by
  induction c with
  | done a => trivial
  | ask call next ih => exact ⟨trivial, ih⟩

/-- A consultation comes to what the analyzer's replies make of it. -/
theorem runs_consult {c : Consult α} {a : α} (h : Runs w (Plan.consult c) d log a e) :
    a = w.consult d c := by
  induction c generalizing d log with
  | done b => exact h.2.1
  | ask call next ih =>
    obtain ⟨answer, mid, rest, rfl, ⟨rfl, rfl⟩, h⟩ := h
    exact ih _ h

end LintHost
