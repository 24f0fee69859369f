/-
LintHost/Scanner/Basic.lean

Scanning a project.  A scan runs the analyzer in each root, one after the other, and
then publishes everything it found at once.  Files that are open elsewhere are left
out.  A run whose output is no report finds nothing; one that fails otherwise finds
what the root gave to the last completed scan, as far as it is still shown and not
open; and a failure that would repeat ends the scan and changes nothing.  While a
scan waits for a reply, another one is refused, files can be handed over, and the
scan can be dropped.
Main fact: a scan that waits refuses another one and goes on waiting
(`start_of_pending`).
-/
import LintHost.Analyzer.Failure
import LintHost.Analyzer.Invocation
import LintHost.Board.Basic
import LintHost.Path.Normal

namespace LintHost

open Analyzer

/-- What has been found below each root, the latest first. -/
abbrev Findings := List (Path × List Diagnostic)

/-- A scan that waits for the reply of the first root that is left. -/
structure Scan where
  roots : List Path
  /-- The root that is being checked. -/
  root : Path
  /-- The roots after it. -/
  left : List Path
  /-- The files that are open elsewhere, in normal form. -/
  opened : List Path
  found : Findings
  deriving DecidableEq, Repr, Inhabited

/-- A project scanner. -/
structure Scanner where
  settings : Settings
  /-- The files that it shows something for, in normal form. -/
  tracked : List Path := []
  /-- What each root gave to the last completed scan. -/
  published : Findings := []
  /-- The scan under way. -/
  pending : Option Scan := none
  deriving Repr, Inhabited

namespace Scanner

/-- How far a scan has come. -/
inductive Progress where
  /-- It was refused, since another one is under way. -/
  | busy
  /-- There was nothing to scan. -/
  | noRoots
  /-- It waits for a run of the analyzer. -/
  | waiting (call : Invocation)
  /-- It was ended and has changed nothing. -/
  | failed
  /-- It has published its diagnostics. -/
  | completed (files diagnostics : Nat)
  /-- There is none. -/
  | idle
  deriving DecidableEq, Repr, Inhabited

/-- What a step brings about: how far the scan has come, what the board is told, and the
scanner afterwards. -/
structure Step where
  progress : Progress
  notices : List Notice := []
  scanner : Scanner
  deriving Repr, Inhabited

/-! ### Files -/

/-- Whether a path is among others. -/
def contains (paths : List Path) (p : Path) : Bool :=
  paths.any (·.same p)

/-- The paths without those that occur later on. -/
def distinct : List Path → List Path
  | [] => []
  | p :: rest => if contains rest p then distinct rest else p :: distinct rest

/-- Whether a scan is under way. -/
def isScanning (s : Scanner) : Bool :=
  s.pending.isSome

/-- The files that the scanner shows something for, in order. -/
def trackedFiles (s : Scanner) : List Path :=
  s.tracked.mergeSort fun p q => (p.compare q).isLE

/-! ### One root -/

/-- What was found below a root at last. -/
def latest (found : Findings) (root : Path) : List Diagnostic :=
  ((found.find? fun f => f.1.same root).map (·.2)).getD []

/-- The diagnostic for a finding below a root, if it names a file that is not open. -/
def placed? (policy : Policy) (root : Path) (opened : List Path) (f : Finding) :
    Option Diagnostic := do
  let file := (root.join (.mk (← f.filename))).normalize
  if contains opened file then none else f.toDiagnostic? policy file 0

/-- What a root gave to the last completed scan, as far as it is still shown and not open. -/
def carried (s : Scanner) (root : Path) (opened : List Path) : List Diagnostic :=
  (latest s.published root).filter fun d =>
    contains s.tracked d.file && !contains opened d.file

/-- What is found below a root by a reply; none if the scan ends. -/
def foundBy (s : Scanner) (root : Path) (opened : List Path) : Reply → Option (List Diagnostic)
  | .ok output =>
    match Report.decode output.toList with
    | .ok found => some (found.filterMap (placed? s.settings.policy root opened))
    | .error _ => some []
  | .error (.report _) => some []
  | .error failure => if failure.endsScan then none else some (s.carried root opened)

/-! ### Steps -/

/-- Asks for the check of the next root. -/
def await (s : Scanner) (scan : Scan) : Step :=
  { progress := .waiting (.checkRoot s.settings scan.root)
    scanner := { s with pending := some scan } }

/-- Starts a scan of some roots, except for the files that are open. -/
def start (s : Scanner) (roots opened : List Path) : Step :=
  if s.isScanning then { progress := .busy, scanner := s }
  else match roots with
    | [] => { progress := .noRoots, scanner := s }
    | root :: left => s.await ⟨roots, root, left, opened.map Path.normalize, []⟩

/-- Publishes what was found below the roots. -/
def publish (s : Scanner) (roots : List Path) (found : Findings) : Step :=
  let ds := roots.flatMap (latest found)
  let files := distinct (ds.map (·.file))
  { progress := .completed files.length ds.length
    notices := [.setAll ds true]
    scanner := { s with tracked := files, published := found, pending := none } }

/-- Goes on with the reply that the scan waits for. -/
def receive (s : Scanner) (reply : Reply) : Step :=
  match s.pending with
  | none => { progress := .idle, scanner := s }
  | some scan =>
    match s.foundBy scan.root scan.opened reply with
    | none => { progress := .failed, scanner := { s with pending := none } }
    | some ds =>
      let found := (scan.root, ds) :: scan.found
      match scan.left with
      | root :: left => s.await { scan with root, left, found }
      | [] => s.publish scan.roots found

/-- Drops the scan under way.  The result says whether there was one. -/
def drop (s : Scanner) : Bool × Scanner :=
  (s.isScanning, { s with pending := none })

/-! ### Handing over -/

/-- Stops showing anything for a file, for others to show it.  The result says whether anything
was shown. -/
def clearFile (s : Scanner) (file : Path) : Bool × List Notice × Scanner :=
  let file := file.normalize
  if contains s.tracked file then
    (true, [.set file []], { s with tracked := s.tracked.filter fun p => !p.same file })
  else (false, [], s)

/-- Stops showing anything. -/
def clearAll (s : Scanner) : List Notice × Scanner :=
  ([.clear], { s with tracked := [], published := [] })

/-! ### What steps leave alone -/

/-- A scan under way refuses another one and goes on waiting. -/
theorem start_of_pending {s : Scanner} (h : s.isScanning = true) (roots opened : List Path) :
    s.start roots opened = { progress := .busy, scanner := s } := by
  simp [start, h]

end Scanner

end LintHost
