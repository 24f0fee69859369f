/-
LintHost/Severity.lean

Severities and the cascade that assigns them.  A cascade is three lists of code
prefixes; a code gets the severity of the first list, in the order error,
warning, info, that holds one of its prefixes.  Main statement: a code is
unmatched exactly when no list holds a prefix of it (`classify_eq_none_iff`).
-/

namespace LintHost

/-- How grave a diagnostic is. -/
inductive Severity where
  | error
  | warning
  | info
  deriving DecidableEq, Repr, Inhabited

/-- The word for a severity. -/
def Severity.label : Severity → String
  | .error => "error"
  | .warning => "warning"
  | .info => "info"

/-- Whether a severity is the gravest. -/
def Severity.isError (s : Severity) : Bool :=
  s == .error

/-- Three lists of code prefixes, one per severity, edited independently. -/
structure Cascade where
  error : List String := ["E", "F"]
  warning : List String := ["W", "C", "B", "N"]
  info : List String := ["D", "I", "UP"]
  deriving DecidableEq, Repr, Inhabited

namespace Cascade

/-- The cascade that leaves every code unmatched. -/
def empty : Cascade :=
  ⟨[], [], []⟩

/-- The prefixes listed for a severity. -/
def prefixes (c : Cascade) : Severity → List String
  | .error => c.error
  | .warning => c.warning
  | .info => c.info

/-- Whether one of the listed texts starts the code. -/
def covers (listed : List String) (code : String) : Bool :=
  listed.any fun p => p.toList.isPrefixOf code.toList

/-- The severities, gravest first. -/
def order : List Severity :=
  [.error, .warning, .info]

/-- The gravest severity whose list covers the code; `none` if no list does. -/
def classify (c : Cascade) (code : String) : Option Severity :=
  order.find? fun s => covers (c.prefixes s) code

/-- A code is unmatched exactly when no list covers it. -/
theorem classify_eq_none_iff {c : Cascade} {code : String} :
    c.classify code = none ↔ ∀ s, covers (c.prefixes s) code = false := by
  simp only [classify, order, List.find?_eq_none, List.mem_cons, List.not_mem_nil, or_false,
    Bool.not_eq_true]
  constructor
  · intro h s
    cases s <;> exact h _ (by simp)
  · exact fun h s _ => h s

end Cascade

end LintHost
