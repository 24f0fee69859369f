/-
LintHost/Proofs/Document/Sessions.lean

Sessions with a linter.  In a session settings are changed, documents are opened, their text is
edited and they are linted, in any order.  A linter keeps the policy beside the settings that it
comes from, and no step takes the two apart (`Linter.Coherent`); nothing else is carried over from
one run to the next but the document.

Main result: each time a document is linted in a session, all that comes of it is what a fresh
linter with the settings set last makes of the document, and what it does to the document is told by
the one reply that it asks for (`lint_in_session`).
-/
import LintHost.Document.Linter

namespace LintHost.Document

open Analyzer

/-! ### Single runs -/

/-- The run that linting a document asks for. -/
def call (s : Settings) (mode : Mode) (d : Document) : Invocation :=
  match mode with
  | .report => .checkText s d.path (Masking.prepare d.text s.allowMagic).text false
  | .fix => .checkText s d.path d.text true

/-- What comes of linting a document when the run has a given reply. -/
def settled (s : Settings) (mode : Mode) (d : Document) (reply : Reply) :
    Except Failure Linted × Document :=
  match mode with
  | .report =>
    (reported (reply.bind fun output =>
      diagnosticsOf s d.path (Masking.prepare d.text s.allowMagic).hidden output), d)
  | .fix => d.fixed (reply.map some)

/-- A document that is not linted is left alone, and nothing is asked for. -/
theorem lint_of_not_linted {s : Settings} {d : Document} (h : d.isLinted s = false)
    (mode : Mode) : d.lint s mode = .done (.ok (.diagnostics []), d) := by
  cases mode with
  | report =>
    rw [lint.eq_def, report, h]
    rfl
  | fix =>
    rw [lint.eq_def, fixedText, h]
    rfl

/-- A document that is linted takes one run, whose reply settles what comes of it. -/
theorem lint_of_linted {s : Settings} {d : Document} (h : d.isLinted s = true) (mode : Mode) :
    d.lint s mode = .ask (call s mode d) fun reply => .done (settled s mode d reply) := by
  cases mode with
  | report =>
    rw [lint.eq_def, report, h]
    refine congrArg (Consult.ask _) (funext fun reply => ?_)
    cases reply with
    | error failure => rfl
    | ok output => rfl
  | fix =>
    rw [lint.eq_def, fixedText, h]
    refine congrArg (Consult.ask _) (funext fun reply => ?_)
    cases reply with
    | error failure => rfl
    | ok output => rfl

/-! ### Sessions -/

/-- One step of a session. -/
inductive Step where
  /-- The linter takes other settings. -/
  | configure (s : Settings)
  /-- Another document is opened. -/
  | openDocument (d : Document)
  /-- The document gets another text. -/
  | edit (text : String)
  /-- The document is linted. -/
  | lint (mode : Mode)

/-- A linter, the document that it is used on, and what the analyzer keeps. -/
structure Session (σ : Type) where
  linter : Linter
  document : Document
  state : σ

/-- What comes of a step: the outcome of linting, the runs that were asked for, and the session
afterwards. -/
structure Response (σ : Type) where
  outcome : Option (Except Failure Linted) := none
  calls : List Invocation := []
  session : Session σ

namespace Session

variable {σ : Type} (analyzer : σ → Invocation → Reply × σ)

/-- What comes of a step. -/
def handle (s : Session σ) : Step → Response σ
  | .configure settings => { session := { s with linter := s.linter.configure settings } }
  | .openDocument document => { session := { s with document } }
  | .edit text => { session := { s with document := { s.document with text } } }
  | .lint mode =>
    let ((outcome, document), calls, state) := (s.linter.lint mode s.document).run analyzer s.state
    ⟨some outcome, calls, { s with document, state }⟩

/-- The session after some steps. -/
def after (s : Session σ) (steps : List Step) : Session σ :=
  steps.foldl (fun s step => (s.handle analyzer step).session) s

end Session

/-- The settings that were set last. -/
def latest (s : Settings) : List Step → Settings
  | [] => s
  | .configure s' :: steps => latest s' steps
  | _ :: steps => latest s steps

/-- Whether the policy of a linter is that of its settings. -/
def Linter.Coherent (l : Linter) : Prop :=
  l.policy = l.settings.policy

theorem Linter.Coherent.eq {l : Linter} (h : l.Coherent) : l = ofSettings l.settings := by
  obtain ⟨settings, policy⟩ := l
  exact congrArg (Linter.mk settings) h

namespace Session

variable {σ : Type} (analyzer : σ → Invocation → Reply × σ)

/-- No step takes the policy of a linter apart from its settings. -/
theorem coherent_handle {s : Session σ} (h : s.linter.Coherent) (step : Step) :
    (s.handle analyzer step).session.linter.Coherent := by
  cases step with
  | configure settings => rfl
  | openDocument document => exact h
  | edit text => exact h
  | lint mode => exact h

theorem settings_handle (s : Session σ) (step : Step) :
    (s.handle analyzer step).session.linter.settings = latest s.linter.settings [step] := by
  cases step with
  | configure settings => rfl
  | openDocument document => rfl
  | edit text => rfl
  | lint mode => rfl

theorem latest_cons (s : Settings) (step : Step) (steps : List Step) :
    latest s (step :: steps) = latest (latest s [step]) steps := by
  cases step with
  | configure settings => rfl
  | openDocument document => rfl
  | edit text => rfl
  | lint mode => rfl

theorem coherent_after {s : Session σ} (h : s.linter.Coherent) (steps : List Step) :
    (s.after analyzer steps).linter.Coherent := by
  induction steps generalizing s with
  | nil => exact h
  | cons step steps ih => exact ih (coherent_handle analyzer h step)

theorem settings_after (s : Session σ) (steps : List Step) :
    (s.after analyzer steps).linter.settings = latest s.linter.settings steps := by
  induction steps generalizing s with
  | nil => rfl
  | cons step steps ih =>
    rw [latest_cons, ← settings_handle analyzer]
    exact ih _

/-- **All that the steps of a session leave in a linter are the settings that were set last.** -/
theorem linter_after {s : Session σ} (h : s.linter.Coherent) (steps : List Step) :
    (s.after analyzer steps).linter = .ofSettings (latest s.linter.settings steps) := by
  rw [(coherent_after analyzer h steps).eq, settings_after]

variable {c : Settings} {d : Document} {state : σ} {mode : Mode}

theorem handle_of_not_linted (h : d.isLinted c = false) :
    handle analyzer ⟨.ofSettings c, d, state⟩ (.lint mode)
      = ⟨some (.ok (.diagnostics [])), [], ⟨.ofSettings c, d, state⟩⟩ := by
  simp only [handle, Linter.lint_ofSettings, lint_of_not_linted h, Consult.run]

theorem handle_of_linted (h : d.isLinted c = true) :
    let answer := analyzer state (call c mode d)
    let result := settled c mode d answer.1
    handle analyzer ⟨.ofSettings c, d, state⟩ (.lint mode)
      = ⟨some result.1, [call c mode d], ⟨.ofSettings c, result.2, answer.2⟩⟩ := by
  simp only [handle, Linter.lint_ofSettings, lint_of_linted h, Consult.run]

end Session

open Session in
/-- **A linter has no memory.**  After any steps of a session, linting the document brings what a
fresh linter with the settings set last brings.  It takes one run if linting is switched on and the
document is a Python source, and none otherwise.  The document changes only if it is fixed: then the
analyzer gets its text as it is, and its output becomes the text.  A report leaves it alone and
gives, in order, the diagnostics that the findings in the output become, all for the document's
path. -/
theorem lint_in_session {σ : Type} (analyzer : σ → Invocation → Reply × σ) (settings : Settings)
    (document : Document) (state : σ) (before : List Step) (mode : Mode) :
    let s := Session.after analyzer ⟨.ofSettings settings, document, state⟩ before
    let c := latest settings before
    let d := s.document
    let reply := (analyzer s.state (call c mode d)).1
    let r := s.handle analyzer (.lint mode)
    let linted := c.enabled = true ∧ d.path.isPython = true
    r = handle analyzer ⟨.ofSettings c, d, s.state⟩ (.lint mode) ∧
      (¬linted → r.calls = [] ∧ r.outcome = some (.ok (.diagnostics [])) ∧
        r.session.document = d) ∧
      (linted → r.calls = [call c mode d]) ∧
      (linted → ∀ failure, reply = .error failure →
        r.outcome = some (.error failure) ∧ r.session.document = d) ∧
      (linted → mode = .fix → (call c mode d).input = some d.text ∧ ∀ output, reply = .ok output →
        r.outcome = some (.ok .fixed) ∧ r.session.document = { d with text := output }) ∧
      (linted → mode = .report → r.session.document = d ∧ ∀ output, reply = .ok output →
        (∀ fault, Report.decode output.toList = .error fault →
          r.outcome = some (.error (.report fault))) ∧
        ∀ found, Report.decode output.toList = .ok found →
          let hidden := (Masking.prepare d.text c.allowMagic).hidden
          let ds := found.filterMap (Finding.toDiagnostic? c.policy d.path hidden)
          r.outcome = some (.ok (.diagnostics ds)) ∧ ∀ x ∈ ds, x.file = d.path) := by
  intro s c d reply r linted
  have hr : r = handle analyzer ⟨.ofSettings c, d, s.state⟩ (.lint mode) := by
    have hlinter : s.linter = .ofSettings c := by
      apply linter_after analyzer
      rfl
    show handle analyzer s (.lint mode) = _
    rw [← hlinter]
  have hlinted : linted ↔ d.isLinted c = true := Bool.and_eq_true_iff.symm
  refine ⟨hr, ?_⟩
  by_cases h : d.isLinted c = true
  · have hl : linted := hlinted.2 h
    have hsettled : r = _ := hr.trans (handle_of_linted analyzer h)
    refine ⟨fun hno => absurd hl hno, fun _ => by rw [hsettled], fun _ failure hf => ?_,
      fun _ hm => ?_, fun _ hm => ?_⟩
    · rw [hsettled]
      show some (settled c mode d reply).1 = _ ∧ (settled c mode d reply).2 = _
      rw [hf]
      cases mode <;> exact ⟨rfl, rfl⟩
    · subst hm
      refine ⟨rfl, fun output ho => ?_⟩
      rw [hsettled]
      show some (settled c .fix d reply).1 = _ ∧ (settled c .fix d reply).2 = _
      rw [ho]
      exact ⟨rfl, rfl⟩
    · subst hm
      rw [hsettled]
      refine ⟨rfl, fun output ho => ?_⟩
      have hout : some (settled c .report d reply).1 = some (reported (diagnosticsOf c d.path
          (Masking.prepare d.text c.allowMagic).hidden output)) := by
        rw [ho]
        rfl
      refine ⟨fun fault hf => hout.trans ?_, fun found hf => ⟨hout.trans ?_, fun x hx => ?_⟩⟩
      · rw [diagnosticsOf, hf]
        rfl
      · rw [diagnosticsOf, hf]
        rfl
      · obtain ⟨f, -, hx⟩ := List.mem_filterMap.1 hx
        exact Finding.file_of_toDiagnostic? hx
  · have hno : ¬linted := mt hlinted.1 h
    have hleft : r = _ := hr.trans (handle_of_not_linted analyzer (Bool.eq_false_iff.2 h))
    exact ⟨fun _ => hleft ▸ ⟨rfl, rfl, rfl⟩, fun hl => absurd hl hno, fun hl => absurd hl hno,
      fun hl => absurd hl hno, fun hl => absurd hl hno⟩

end LintHost.Document
