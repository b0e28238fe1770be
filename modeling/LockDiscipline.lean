import LockDiscipline.Analysis
import LockDiscipline.CommandLine.Arguments
import LockDiscipline.CommandLine.Run
import LockDiscipline.Dictionary
import LockDiscipline.Guard.Discipline
import LockDiscipline.Guard.Interval
import LockDiscipline.Guard.Location
import LockDiscipline.Guard.LockNote
import LockDiscipline.Guard.Map
import LockDiscipline.Guard.Resolution
import LockDiscipline.Guard.Usage
import LockDiscipline.Json.Basic
import LockDiscipline.Json.Numeral
import LockDiscipline.Json.Parser
import LockDiscipline.Json.Printer
import LockDiscipline.Json.Record
import LockDiscipline.Json.Token
import LockDiscipline.Loading
import LockDiscipline.Main
import LockDiscipline.Manifest.Basic
import LockDiscipline.Manifest.Search
import LockDiscipline.Program.Basic
import LockDiscipline.Program.Builder
import LockDiscipline.Program.CallGraph
import LockDiscipline.Program.Comments
import LockDiscipline.Program.Consistency
import LockDiscipline.Program.Decode
import LockDiscipline.Program.Derivation
import LockDiscipline.Program.Encode
import LockDiscipline.Program.Instruction
import LockDiscipline.Program.Position
import LockDiscipline.Program.Snapshot
import LockDiscipline.Program.TypeExpr
import LockDiscipline.Report.Basic
import LockDiscipline.Report.Lines
import LockDiscipline.Report.Script
import LockDiscipline.Storage.Disk
import LockDiscipline.Storage.FileTree
import LockDiscipline.Storage.Path
import LockDiscipline.Text.Blank
import LockDiscipline.Text.Hex
import LockDiscipline.Text.Lines
import LockDiscipline.Toml.Basic
import LockDiscipline.Toml.Quoted
import LockDiscipline.Toml.Reader
import LockDiscipline.Toml.Scalar
import LockDiscipline.Walk.Basic
import LockDiscipline.Walk.Program
import LockDiscipline.Proofs.Walk.Chain
import LockDiscipline.Proofs.Walk.Search
import LockDiscipline.Proofs.Walk.Exhaustive
import LockDiscipline.Proofs.Program.Graph
import LockDiscipline.Proofs.Walk.Verdict
import LockDiscipline.Proofs.Guard.Declared
import LockDiscipline.Proofs.Analysis.Violations
import LockDiscipline.Proofs.Checked.Lookup
import LockDiscipline.Proofs.Checked.Resolve
import LockDiscipline.Proofs.Checked.Check
import LockDiscipline.Proofs.Checked.Lines
import LockDiscipline.Proofs.Analysis.Escapes
import LockDiscipline.Proofs.Guard.Scan
import LockDiscipline.Proofs.Guard.Binding
import LockDiscipline.Proofs.Guard.Interval
import LockDiscipline.Proofs.Analysis.AddedLock
import LockDiscipline.Proofs.Reformat.Body
import LockDiscipline.Proofs.Reformat.Resolution
import LockDiscipline.Proofs.Reformat.Report
import LockDiscipline.Proofs.Analysis.Selection
import LockDiscipline.Proofs.Analysis.Usages
import LockDiscipline.Proofs.Analysis.Comments
import LockDiscipline.Proofs.Json.RoundTrip
import LockDiscipline.Proofs.Json.Record
import LockDiscipline.Proofs.Program.RoundTrip
import LockDiscipline.Proofs.Program.Growth
import LockDiscipline.Proofs.Program.Builder
import LockDiscipline.Proofs.Program.Calls
import LockDiscipline.Proofs.Walk.Outcome
import LockDiscipline.Proofs.Guard.Pairing
import LockDiscipline.Proofs.Walk.Trust
import LockDiscipline.Proofs.Report.History
import LockDiscipline.Proofs.Report.Repeats
import LockDiscipline.Proofs.Report.Groups
import LockDiscipline.Proofs.Report.Signature
import LockDiscipline.Proofs.Report.Canonical
import LockDiscipline.Proofs.Report.Modes
import LockDiscipline.Proofs.Report.Known
import LockDiscipline.Proofs.Program.Acceptance
import LockDiscipline.Proofs.Analysis.CallEdges
import LockDiscipline.Proofs.Program.FieldNames
import LockDiscipline.Proofs.Guard.Layout
import LockDiscipline.Proofs.Loading.RootModule
import LockDiscipline.Proofs.Manifest.Upward
