/-
LintHost/Environment.lean

Environment variables, the home directory, and expansion of references.  A
reference is `${`, a name without a closing brace, and a closing brace; it stands
for the value of the variable, or for nothing.  Expansion goes through a text once
from left to right: a value is never expanded again, and a reference that is never
closed is kept as it is.
Main facts: a variable has its value under its name (`valueUnder_self`), a text
without references is its own expansion (`expand_of_free`), and a reference in front of
a text is replaced by the value (`expand_reference`).
-/
import LintHost.Path.Basic

namespace LintHost

/-- The variables of a process, and the home directory of the account it runs under. -/
structure Environment where
  values : List (String × String)
  account : Option Path := none
  deriving Repr, Inhabited

namespace Environment

/-- Whether a name can be looked up. -/
def isPossible (name : String) : Bool :=
  name ≠ "" && !name.toList.contains '\x00'

/-- The value that a variable has under a name: what follows the name and an equals sign in the
text that joins the variable's own name and value by that sign.  So a name that holds the sign
itself reaches into the value. -/
def valueUnder (name : String) (entry : String × String) : Option String :=
  ((name.toList ++ ['=']).isPrefixOf? (entry.1.toList ++ '=' :: entry.2.toList)).map
    String.ofList

/-- The value of the first variable that has one under the name. -/
def get? (env : Environment) (name : String) : Option String :=
  if isPossible name then env.values.findSome? (valueUnder name) else none

/-- Under its own name a variable has its value. -/
theorem valueUnder_self (name value : String) : valueUnder name (name, value) = some value := by
  have h : (name.toList ++ ['=']).isPrefixOf? (name.toList ++ '=' :: value.toList)
      = some value.toList := by
    generalize name.toList = cs
    induction cs with
    | nil => rfl
    | cons c cs ih =>
      show (if c == c then (cs ++ ['=']).isPrefixOf? (cs ++ '=' :: value.toList) else none) = _
      rw [beq_self_eq_true, if_pos rfl, ih]
  simp [valueUnder, h]

/-- The value of a variable, empty if it is not set. -/
def getD (env : Environment) (name : String) : String :=
  (env.get? name).getD ""

/-- The home directory: the one that is set, else the one of the account. -/
def home? (env : Environment) : Option Path :=
  match env.get? "HOME" with
  | some "" | none => env.account
  | some home => some ⟨home⟩

/-! ### Expansion -/

/-- The text with every closed reference replaced by the value of its variable. -/
def expand (env : Environment) : List Char → List Char
  | [] => []
  | '$' :: '{' :: rest =>
    match _h : Text.splitFirst? '}' rest with
    | some (name, after) => (env.getD (String.ofList name)).toList ++ expand env after
    | none => '$' :: '{' :: rest
  | c :: rest => c :: expand env rest
termination_by s => s.length
decreasing_by
  · have := Text.splitFirst?_length_lt _h
    simp only [List.length_cons]; omega
  · simp

/-- Expansion of a string. -/
def expandString (env : Environment) (s : String) : String :=
  String.ofList (env.expand s.toList)

/-- A reference is replaced by the value of its variable. -/
theorem expand_reference (env : Environment) {name : List Char} (h : '}' ∉ name)
    (rest : List Char) :
    env.expand ('$' :: '{' :: (name ++ '}' :: rest))
      = (env.getD (String.ofList name)).toList ++ env.expand rest := by
  have hs : Text.splitFirst? '}' (name ++ '}' :: rest) = some (name, rest) :=
    Text.splitFirst?_eq_some_iff.2 ⟨rfl, h⟩
  rw [expand]
  split
  · next hs' =>
    rw [hs] at hs'
    simp only [Option.some.injEq, Prod.mk.injEq] at hs'
    rw [← hs'.1, ← hs'.2]
  · next hs' => simp [hs] at hs'

/-- A text without a dollar sign is kept. -/
theorem expand_of_free (env : Environment) {s : List Char} (h : '$' ∉ s) : env.expand s = s := by
  induction s with
  | nil => simp [expand]
  | cons c rest ih =>
    simp only [List.mem_cons, not_or] at h
    rw [expand, ih h.2]
    rintro rest' rfl
    exact absurd rfl h.1

end Environment

end LintHost
