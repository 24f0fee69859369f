/-
LintHost/Toml/Table.lean

Trees of tables as they are built.  A document names its members one after the other
by dotted paths, under headers that are dotted paths themselves, and every table may
be set up only once.  A header sets up the table that it names and implies those on
the way, which a later header may still set up.  A dotted path creates the tables on
its way and may go through tables that were only implied or created by dotted paths,
and through the newest table of an array on the way to a further table.  Arrays and
tables written as values are closed.  A key is kept as it was met first, until a header
sets up its table.
-/
import LintHost.Toml.Key
import LintHost.Toml.Value

namespace LintHost.Toml

/-- Where a header stands among the headers, what stands before its brackets, and what stands
behind them on its line. -/
structure Heading where
  place : Nat
  lead : List Token
  tail : List Token
  deriving DecidableEq, Repr, Inhabited

/-- How a table came about. -/
inductive Origin where
  /-- It stands on the way of a header. -/
  | implied
  /-- It stands on the way of a dotted path. -/
  | dotted
  /-- A header names it. -/
  | header (heading : Heading)
  deriving DecidableEq, Repr

/-- A member of a table. -/
inductive Node where
  /-- A value, and what is written behind the equals sign. -/
  | value (v : Value) (right : List Token)
  | table (origin : Origin) (members : List (Key × Node))
  /-- An array of tables: the newest one, and the older ones, newest first. -/
  | tables (newest : Heading × List (Key × Node)) (older : List (Heading × List (Key × Node)))
  deriving Inhabited

/-- The members of a table, in order. -/
abbrev Members := List (Key × Node)

/-- Changes the member with the given name, or adds it at the end. -/
def adjust (name : String) (f : Option (Key × Node) → Option (Key × Node)) :
    Members → Option Members
  | [] => (f none).map fun m => [m]
  | m :: rest =>
    if m.1.name = name then (f (some m)).map (· :: rest) else (adjust name f rest).map (m :: ·)

/-- A change of the members of a table, refused if it would set something up twice. -/
abbrev Change := Members → Option Members

/-! ### Dotted paths -/

/-- Defines the member at a dotted path. -/
def define (v : Value) (right : List Token) : List Key → Change
  | [] => fun _ => none
  | [key] => adjust key.name fun
    | none => some (key, .value v right)
    | some _ => none
  | key :: next :: path => adjust key.name fun
    | none => (define v right (next :: path) []).map fun inner => (key, .table .dotted inner)
    | some (_, .value _ _) | some (_, .table (.header _) _) => none
    | some (k, .table _ inner) =>
      (define v right (next :: path) inner).map fun inner => (k, .table .dotted inner)
    | some (k, .tables (heading, newest) older) =>
      if path.isEmpty then none
      else (define v right (next :: path) newest).map fun newest =>
        (k, .tables (heading, newest) older)

/-! ### Headers -/

/-- A change behind one step of a header.  In an array of tables it concerns the newest one. -/
def behindHeader (key : Key) (change : Change) : Change :=
  adjust key.name fun
    | none => (change []).map fun inner => (key, .table .implied inner)
    | some (k, .table origin inner) => (change inner).map fun inner => (k, .table origin inner)
    | some (k, .tables (heading, newest) older) =>
      (change newest).map fun newest => (k, .tables (heading, newest) older)
    | some (_, .value _ _) => none

/-- A change of the table that a header named. -/
def within (header : List Key) (change : Change) : Change :=
  header.foldr behindHeader change

/-- Sets up a table, new or implied so far. -/
def setUp (heading : Heading) (key : Key) : Change :=
  adjust key.name fun
    | none => some (key, .table (.header heading) [])
    | some (_, .table .implied inner) => some (key, .table (.header heading) inner)
    | some _ => none

/-- Adds a table to an array of tables, new or begun so far. -/
def appendNew (heading : Heading) (key : Key) : Change :=
  adjust key.name fun
    | none => some (key, .tables (heading, []) [])
    | some (k, .tables newest older) => some (k, .tables (heading, []) (newest :: older))
    | some _ => none

/-- Sets up the table named by a header, or adds one to the array that a repeated header
names. -/
def openTable (repeated : Bool) (heading : Heading) (path : List Key) : Change :=
  match path.getLast? with
  | none => fun _ => none
  | some key =>
    within path.dropLast (if repeated then appendNew heading key else setUp heading key)

/-! ### Values -/

mutual

/-- The value of a member. -/
def Node.toValue : Node → Value
  | .value v _ => v
  | .table _ members => .table (valuesOf members)
  | .tables (_, newest) older => .array (elementsOf older ++ [.table (valuesOf newest)])

/-- The values of the members of a table. -/
def valuesOf : List (Key × Node) → List (String × Value)
  | [] => []
  | (key, node) :: rest => (key.name, node.toValue) :: valuesOf rest

/-- The values of tables, the last one first. -/
def elementsOf : List (Heading × List (Key × Node)) → List Value
  | [] => []
  | (_, members) :: rest => elementsOf rest ++ [.table (valuesOf members)]

end

end LintHost.Toml
