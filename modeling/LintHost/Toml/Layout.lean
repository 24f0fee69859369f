/-
LintHost/Toml/Layout.lean

The order in which a tree of tables is written.  The values of a table and of the
tables that dotted paths created in it are written together, each table's in one row,
in the order in which their keys were met.  Every other table is a section of its own,
and the sections stand in the order of their headers.
Main facts: every section is written once (`sections_perm`), in the order of the headers
(`sections_pairwise`).
-/
import LintHost.Toml.Table

namespace LintHost.Toml

/-! ### Entries -/

mutual

/-- What is written for a member among the values of its table: a path, an equals sign and a
value, or as many of them as the member has. -/
def Node.entries (path : List Key) : Node → List (List Token)
  | .value _ right => [pathTokens path ++ .char '=' :: right]
  | .table .dotted members => entriesOf path members
  | .table _ _ | .tables _ _ => []

/-- What is written for the values among the members of a table. -/
def entriesOf (path : List Key) : List (Key × Node) → List (List Token)
  | [] => []
  | (key, node) :: rest => node.entries (path ++ [key]) ++ entriesOf path rest

end

/-- The values of a table, each on a line of its own. -/
def bodyTokens (members : Members) : List Token :=
  (entriesOf [] members).flatMap (· ++ [.newline])

/-! ### Sections -/

/-- Brackets around a header, single or double. -/
def brackets (repeated : Bool) (c : Char) : List Token :=
  List.replicate (if repeated then 2 else 1) (.char c)

/-- A table under its header. -/
structure Section where
  heading : Heading
  repeated : Bool
  path : List Key
  members : Members
  deriving Inhabited

/-- The tokens of a section. -/
def Section.tokens (s : Section) : List Token :=
  s.heading.lead ++ brackets s.repeated '[' ++ pathTokens s.path ++ brackets s.repeated ']'
    ++ s.heading.tail ++ .newline :: bodyTokens s.members

/-- The section of a table, if it has a header. -/
def sectionOf? (path : List Key) (members : Members) : Origin → Option Section
  | .header heading => some ⟨heading, false, path, members⟩
  | .implied | .dotted => none

mutual

/-- The sections of a member and of the tables in it. -/
def Node.sections (path : List Key) : Node → List Section
  | .value _ _ => []
  | .table origin members => (sectionOf? path members origin).toList ++ sectionsOf path members
  | .tables (heading, newest) older =>
    ⟨heading, true, path, newest⟩ :: sectionsOf path newest ++ olderSections path older

/-- The sections of the tables among the members of a table. -/
def sectionsOf (path : List Key) : List (Key × Node) → List Section
  | [] => []
  | (key, node) :: rest => node.sections (path ++ [key]) ++ sectionsOf path rest

/-- The sections of the tables of an array. -/
def olderSections (path : List Key) : List (Heading × List (Key × Node)) → List Section
  | [] => []
  | (heading, members) :: rest =>
    ⟨heading, true, path, members⟩ :: sectionsOf path members ++ olderSections path rest

end

/-- The sections of a tree in the order of their headers. -/
def sections (members : Members) : List Section :=
  (sectionsOf [] members).mergeSort fun a b => a.heading.place ≤ b.heading.place

/-- Sorting neither adds nor loses a section. -/
theorem sections_perm (members : Members) : (sections members).Perm (sectionsOf [] members) :=
  List.mergeSort_perm _ _

/-- Sections stand in the order of their headers. -/
theorem sections_pairwise (members : Members) :
    (sections members).Pairwise fun a b => a.heading.place ≤ b.heading.place := by
  have h : (sections members).Pairwise fun a b =>
      decide (a.heading.place ≤ b.heading.place) = true :=
    List.pairwise_mergeSort
      (fun a b c hab hbc => by simp only [decide_eq_true_eq] at *; omega)
      (fun a b => by simp only [Bool.or_eq_true, decide_eq_true_eq]; omega) _
  simpa only [decide_eq_true_eq] using h

end LintHost.Toml
