/-
LintHost/Finding/Basic.lean

Findings as the analyzer reports them, and the diagnostics they become.  Marks
are 1-based.  A finding without a code, or with the code of input that could not
be parsed, is an error at the start of its row.  Any other finding gets the
severity of the cascade; one that no list matches is an error whose code may be
marked with a star.  A finding on a hidden row is dropped.
Main statement: a finding is dropped exactly when its row is hidden
(`toDiagnostic?_eq_none_iff`).
-/
import LintHost.Diagnostic

namespace LintHost

/-- A 1-based row and column. -/
structure Mark where
  row : UInt32
  column : UInt32
  deriving DecidableEq, Repr, Inhabited

/-- One finding in the analyzer's report. -/
structure Finding where
  filename : Option String := none
  code : Option String := none
  message : String
  start : Mark
  stop : Mark
  deriving DecidableEq, Repr, Inhabited

/-- How findings are classified: the cascade, and whether unmatched codes are marked. -/
structure Policy where
  cascade : Cascade := {}
  markUnmatched : Bool := true
  deriving DecidableEq, Repr, Inhabited

/-- The difference of two words, zero where it would be negative. -/
def monus (a b : UInt32) : UInt32 :=
  if a ≤ b then 0 else a - b

theorem toNat_monus (a b : UInt32) : (monus a b).toNat = a.toNat - b.toNat := by
  unfold monus
  split
  · next h => simp only [UInt32.toNat_zero, UInt32.le_iff_toNat_le] at *; omega
  · next h =>
    rw [UInt32.toNat_sub_of_le]
    simp only [UInt32.le_iff_toNat_le] at *; omega

namespace Finding

/-- The code of input that the analyzer could not parse. -/
def unparseable : String := "E999"

/-- The sign that marks an unmatched code. -/
def unmatchedMark : String := "*"

/-- What a finding says once it is classified. -/
structure Verdict where
  severity : Severity
  code : Option String
  column : UInt32
  deriving DecidableEq, Repr

/-- The severity, the shown code and the start column of a finding. -/
def verdict (policy : Policy) (f : Finding) : Verdict :=
  match f.code with
  | none => ⟨.error, none, 1⟩
  | some code =>
    if code = unparseable then ⟨.error, none, 1⟩
    else match policy.cascade.classify code with
      | some severity => ⟨severity, some code, f.start.column⟩
      | none =>
        ⟨.error, some (if policy.markUnmatched then code ++ unmatchedMark else code),
          f.start.column⟩

/-- The message with its code in front, if there is one. -/
def shownMessage (code : Option String) (message : String) : String :=
  match code with
  | some code => code ++ " — " ++ message
  | none => message

/-- The diagnostic for `file` that a finding becomes when `hidden` rows stand before the
user's text; `none` if the finding starts on one of them. -/
def toDiagnostic? (policy : Policy) (file : Path) (hidden : UInt32) (f : Finding) :
    Option Diagnostic :=
  if f.start.row ≤ hidden then none
  else
    let v := f.verdict policy
    let offset := 1 + hidden
    some {
      severity := v.severity
      code := v.code
      message := shownMessage v.code f.message
      file
      span := {
        start := ⟨monus f.start.row offset, monus v.column 1⟩
        stop := ⟨monus f.stop.row offset, monus f.stop.column 1⟩ } }

/-- A finding is dropped exactly when its row is hidden. -/
theorem toDiagnostic?_eq_none_iff {policy : Policy} {file : Path} {hidden : UInt32}
    {f : Finding} : f.toDiagnostic? policy file hidden = none ↔ f.start.row ≤ hidden := by
  unfold toDiagnostic?
  split <;> simp_all

theorem file_of_toDiagnostic? {policy : Policy} {file : Path} {hidden : UInt32} {f : Finding}
    {d : Diagnostic} (h : f.toDiagnostic? policy file hidden = some d) : d.file = file := by
  unfold toDiagnostic? at h
  split at h
  · cases h
  · rw [← Option.some.inj h]

end Finding

end LintHost
