import LintHost.Analyzer.Arguments
import LintHost.Analyzer.Capture
import LintHost.Analyzer.Consult
import LintHost.Analyzer.Failure
import LintHost.Analyzer.Invocation
import LintHost.Analyzer.Launch
import LintHost.Board.Basic
import LintHost.Command.Basic
import LintHost.Command.Grammar
import LintHost.Command.Run
import LintHost.Command.Usage
import LintHost.Diagnostic
import LintHost.Diff.Compaction
import LintHost.Diff.Edit
import LintHost.Diff.Search
import LintHost.Diff.Unified
import LintHost.Document.Format
import LintHost.Document.Lint
import LintHost.Document.Linter
import LintHost.Environment
import LintHost.Finding.Basic
import LintHost.Finding.Report
import LintHost.Host.Machine
import LintHost.Host.Plan
import LintHost.Json.Printer
import LintHost.Json.Reader
import LintHost.Json.Value
import LintHost.LineRange
import LintHost.Main
import LintHost.Masking
import LintHost.Numeral
import LintHost.Path.Basic
import LintHost.Path.Normal
import LintHost.Rendering
import LintHost.Scanner.Basic
import LintHost.Settings.Basic
import LintHost.Settings.Location
import LintHost.Settings.Reading
import LintHost.Settings.Toggle
import LintHost.Severity
import LintHost.Storage.Disk
import LintHost.Storage.Fault
import LintHost.Storage.Replace
import LintHost.Text.Classes
import LintHost.Text.Digit
import LintHost.Text.Lines
import LintHost.Text.Raw
import LintHost.Text.Utf8
import LintHost.Toml.Document
import LintHost.Toml.Key
import LintHost.Toml.Layout
import LintHost.Toml.Reader
import LintHost.Toml.Scalar
import LintHost.Toml.Table
import LintHost.Toml.Token
import LintHost.Toml.Value
import LintHost.Proofs.Masking.Matching
import LintHost.Proofs.Path.Canonical
import LintHost.Proofs.Board.Contents
import LintHost.Proofs.Path.Order
import LintHost.Proofs.Scanner.Events
import LintHost.Proofs.Scanner.Sound
import LintHost.Proofs.Scanner.Ledger
import LintHost.Proofs.Scanner.Contribution
import LintHost.Proofs.Scanner.Completion
import LintHost.Proofs.Text.Separators
import LintHost.Proofs.Scanner.HandOver
import LintHost.Proofs.Scanner.Rescan
import LintHost.Proofs.Scanner.AllOrNothing
import LintHost.Proofs.Scanner.Exclusion
import LintHost.Proofs.Document.Agreement
import LintHost.Proofs.Text.Pairing
import LintHost.Proofs.Text.Encoding
import LintHost.Proofs.Toml.Tokens
import LintHost.Proofs.Toml.Paths
import LintHost.Proofs.Toml.Cutting
import LintHost.Proofs.Toml.Members
import LintHost.Proofs.Toml.Alike
import LintHost.Proofs.Toml.Sound
import LintHost.Proofs.Toml.Leaves
import LintHost.Proofs.Toml.Regrowth
import LintHost.Proofs.Toml.Literals
import LintHost.Proofs.Toml.Statements
import LintHost.Proofs.Toml.RoundTrip
import LintHost.Proofs.Toml.Flags
import LintHost.Proofs.Settings.Reading
import LintHost.Proofs.Settings.Switching
import LintHost.Proofs.Storage.Replacing
import LintHost.Proofs.Settings.Toggling
import LintHost.Proofs.Masking.Lines
import LintHost.Proofs.Text.Trimming
import LintHost.Proofs.Document.Rows
import LintHost.Proofs.Scanner.Launching
import LintHost.Proofs.Scanner.Repetition
import LintHost.Proofs.Settings.Enabled
import LintHost.Proofs.Analyzer.Schedules
import LintHost.Proofs.Document.Sessions
import LintHost.Proofs.Json.Spelling
import LintHost.Proofs.Json.Reading
import LintHost.Proofs.Text.Bytewise
import LintHost.Proofs.Finding.Records
import LintHost.Proofs.Finding.Reports
import LintHost.Proofs.Text.Decoding
import LintHost.Proofs.Text.Raw
import LintHost.Proofs.Host.Mishaps
import LintHost.Proofs.Storage.Wholeness
import LintHost.Proofs.Storage.Directories
import LintHost.Proofs.Host.Regular
import LintHost.Proofs.Settings.Rewriting
import LintHost.Proofs.Command.Rewriting
import LintHost.Proofs.Masking.LineByLine
import LintHost.Proofs.Board.Snapshots
import LintHost.Proofs.Path.Absolute
import LintHost.Proofs.Host.Outcomes
import LintHost.Proofs.Scanner.OpenFiles
import LintHost.Proofs.Command.Scanning
import LintHost.Proofs.Text.Terminators
import LintHost.Proofs.Diff.Scripts
import LintHost.Proofs.Diff.Moves
import LintHost.Proofs.Diff.Sliding
import LintHost.Proofs.Diff.Joining
import LintHost.Proofs.Diff.Hunks
import LintHost.Proofs.Diff.Patch
import LintHost.Proofs.Diff.Applying
import LintHost.Proofs.Command.Differences
import LintHost.Proofs.Path.Walks
import LintHost.Proofs.Scanner.Spellings
import LintHost.Proofs.Finding.Positions
import LintHost.Proofs.Document.Selections
import LintHost.Proofs.Document.Covering
import LintHost.Proofs.Document.Columns
import LintHost.Proofs.Masking.Completeness
import LintHost.Proofs.Document.Ranges
import LintHost.Proofs.Command.LineRanges
import LintHost.Proofs.Analyzer.Recovery
import LintHost.Proofs.Environment.References
import LintHost.Proofs.Toml.Comments
import LintHost.Proofs.Toml.Unchanged
import LintHost.Proofs.Toml.Turning
import LintHost.Proofs.Settings.Editing
import LintHost.Proofs.Settings.Fields
import LintHost.Proofs.Settings.Independence
import LintHost.Proofs.Severity.Verdicts
import LintHost.Proofs.Command.Renderings
