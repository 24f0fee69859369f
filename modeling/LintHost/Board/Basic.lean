/-
LintHost/Board/Basic.lean

The diagnostics that one producer shows, file by file.  Files are told apart by
their components; a file keeps the spelling under which it was first put up until it
is taken down.  A snapshot lists the files with an error first, and otherwise in the
order of their paths.  What a producer tells the board is a notice.
Main facts: a file shows what was set for it last (`get_set_self`), and setting one
file leaves all others alone (`get_set_of_not_same`).
-/
import LintHost.Diagnostic

namespace LintHost

/-- What is shown for each file.  No file is listed twice and none without diagnostics. -/
structure Board where
  entries : List (Path × List Diagnostic) := []
  deriving Repr, Inhabited

namespace Board

/-- A board without diagnostics. -/
def empty : Board := {}

/-- The entries with that of a file replaced, or added at the end. -/
def put (file : Path) (ds : List Diagnostic) :
    List (Path × List Diagnostic) → List (Path × List Diagnostic)
  | [] => [(file, ds)]
  | (p, old) :: rest => if p.same file then (p, ds) :: rest else (p, old) :: put file ds rest

/-- Shows the given diagnostics for a file, and no others. -/
def set (b : Board) (file : Path) (ds : List Diagnostic) : Board :=
  if ds = [] then ⟨b.entries.filter fun e => !e.1.same file⟩ else ⟨put file ds b.entries⟩

/-- The diagnostics shown for a file. -/
def get (b : Board) (file : Path) : List Diagnostic :=
  ((b.entries.find? fun e => e.1.same file).map (·.2)).getD []

/-- Shows one more diagnostic for its file. -/
def add (b : Board) (d : Diagnostic) : Board :=
  b.set d.file (b.get d.file ++ [d])

/-- A board with the given diagnostics, each under its file. -/
def ofList (ds : List Diagnostic) : Board :=
  ds.foldl add empty

/-! ### What is shown for a file -/

theorem find?_put_self (file : Path) (ds : List Diagnostic)
    (entries : List (Path × List Diagnostic)) :
    ((put file ds entries).find? fun e => e.1.same file).map (·.2) = some ds := by
  induction entries with
  | nil => simp [put, Path.same]
  | cons e rest ih =>
    obtain ⟨p, old⟩ := e
    by_cases h : p.same file = true <;> simp [put, h, ih]

theorem get_set_self (b : Board) (file : Path) (ds : List Diagnostic) :
    (b.set file ds).get file = ds := by
  unfold set get
  split
  · next h =>
    have : (b.entries.filter fun e => !e.1.same file).find? (fun e => e.1.same file) = none := by
      simp only [List.find?_eq_none, List.mem_filter, Bool.not_eq_true', and_imp]
      intro e _ he
      simp [he]
    simp [this, h]
  · simp [find?_put_self]

theorem same_comm (p q : Path) : p.same q = q.same p := by
  simp only [Path.same, BEq.comm]

theorem same_trans {p q r : Path} (h : p.same q = true) : p.same r = q.same r := by
  simp only [Path.same, beq_iff_eq] at h ⊢
  rw [h]

theorem get_set_of_not_same (b : Board) {file other : Path} (ds : List Diagnostic)
    (h : other.same file = false) : (b.set file ds).get other = b.get other := by
  have key (p : Path) (hp : p.same file = true) : p.same other = false := by
    rw [same_trans hp, same_comm]
    exact h
  unfold set get
  split
  · congr 2
    induction b.entries with
    | nil => rfl
    | cons e rest ih =>
      by_cases he : e.1.same file = true
      · simp [he, key e.1 he, ih]
      · simp only [Bool.not_eq_true] at he
        simp [he, List.find?_cons, ih]
  · congr 2
    induction b.entries with
    | nil =>
      simp only [put, List.find?_cons, List.find?_nil]
      rw [same_comm, h]
    | cons e rest ih =>
      obtain ⟨p, old⟩ := e
      by_cases hp : p.same file = true
      · simp [put, hp, key p hp]
      · simp only [Bool.not_eq_true] at hp
        simp [put, hp, List.find?_cons, ih]

/-! ### Snapshots -/

/-- Whether one of the diagnostics is an error. -/
def hasError (ds : List Diagnostic) : Bool :=
  ds.any fun d => d.severity.isError

/-- The order of entries: those with an error first, then by path. -/
def precedes (a b : Path × List Diagnostic) : Bool :=
  if hasError a.2 = hasError b.2 then (a.1.compare b.1).isLE else hasError a.2

/-- The entries in the order in which they are shown. -/
def snapshot (b : Board) : List (Path × List Diagnostic) :=
  b.entries.mergeSort precedes

/-- All diagnostics in the order in which they are shown. -/
def shown (b : Board) : List Diagnostic :=
  b.snapshot.flatMap (·.2)

/-- The number of diagnostics of a severity. -/
def count (b : Board) (s : Severity) : Nat :=
  b.shown.countP fun d => d.severity == s

/-- The numbers of errors, warnings and infos; nothing if nothing is shown. -/
def status (b : Board) : String :=
  if b.entries = [] then ""
  else "E:" ++ toString (b.count .error) ++ " W:" ++ toString (b.count .warning)
    ++ " I:" ++ toString (b.count .info)

end Board

/-! ### Notices -/

/-- A change of what is shown, as a producer of diagnostics tells the board. -/
inductive Notice where
  /-- Show these diagnostics for a file, and no others. -/
  | set (file : Path) (ds : List Diagnostic)
  /-- Show these diagnostics, and no others; maybe bring the view of the project to the
  front. -/
  | setAll (ds : List Diagnostic) (showProject : Bool)
  /-- Show nothing. -/
  | clear
  deriving DecidableEq, Repr, Inhabited

/-- The board after a change. -/
def Board.apply (b : Board) : Notice → Board
  | .set file ds => b.set file ds
  | .setAll ds _ => Board.ofList ds
  | .clear => Board.empty

/-- The board after changes one after the other. -/
def Board.applyAll (b : Board) (notices : List Notice) : Board :=
  notices.foldl Board.apply b

end LintHost
