import Unnest.Main
import Unnest.Proofs.Outcome
import Unnest.Proofs.Json.Branches
import Unnest.Proofs.Binary64.Rounding
import Unnest.Proofs.Binary64.Integer
import Unnest.Proofs.Json.Grammar.Basic
import Unnest.Proofs.Json.Grammar.Number
import Unnest.Proofs.Json.Grammar.String
import Unnest.Proofs.Json.Grammar.Value
import Unnest.Proofs.Document
import Unnest.Proofs.Validation
import Unnest.Proofs.Json.Grammar.Constant
import Unnest.Proofs.Json.Grammar.LongInteger
import Unnest.Proofs.Document.Failure
import Unnest.Proofs.JsonTable.Moves
import Unnest.Proofs.Table.Basic
import Unnest.Proofs.Json.Levels
import Unnest.Proofs.JsonTable.Places
import Unnest.Proofs.Source
import Unnest.Proofs.JsonTable.Provenance
import Unnest.Proofs.JsonTable.Order
import Unnest.Proofs.Table.Sound
import Unnest.Proofs.Table.Frame
import Unnest.Proofs.JsonTable.Sound
import Unnest.Proofs.Table.Rows
import Unnest.Proofs.JsonTable.Rows
import Unnest.Proofs.JsonTable.Parts
import Unnest.Proofs.Descriptor
import Unnest.Proofs.JsonTable.Drill
import Unnest.Proofs.JsonTable.Effect
import Unnest.Proofs.Datum.Display
import Unnest.Proofs.Call
import Unnest.Proofs.Json.Throughout
import Unnest.Proofs.JsonTable.Legible
import Unnest.Proofs.JsonTable.Refusal
import Unnest.Proofs.JsonTable.Settled
import Unnest.Proofs.Source.Routes
import Unnest.Proofs.Table.Append
import Unnest.Proofs.JsonTable.Append
import Unnest.Proofs.JsonTable.Concatenation
import Unnest.Proofs.Pipeline.Basic
import Unnest.Proofs.Pipeline.Composition
import Unnest.Proofs.Pipeline.Documents
import Unnest.Proofs.Pipeline.Forms
import Unnest.Proofs.Profiler.Session
import Unnest.Proofs.Pipeline.Profiled
import Unnest.Proofs.Profiler.Csv
import Unnest.Proofs.Profiler.History
import Unnest.Proofs.Pipeline.Report
import Unnest.Proofs.Json.Size
import Unnest.Proofs.Json.Grammar.Size
import Unnest.Proofs.Json.Grammar.Character
import Unnest.Proofs.Text.Figures
import Unnest.Proofs.Text.Whole
import Unnest.Proofs.Text.Digit
import Unnest.Proofs.Text.Separator
import Unnest.Proofs.Text.Line
import Unnest.Proofs.Table.Room
import Unnest.Proofs.Table.Overflow
import Unnest.Proofs.Table.RoundTrip
import Unnest.Proofs.Table.Export
import Unnest.Proofs.Table.Print
import Unnest.Proofs.Text.Csv
import Unnest.Proofs.Table.Csv
import Unnest.Proofs.JsonTable.SpreadAll
import Unnest.Proofs.JsonTable.Exportable
import Unnest.Proofs.JsonTable.Load
import Unnest.Proofs.Pipeline.Ready
import Unnest.Proofs.Command.Step
import Unnest.Proofs.Command.Spelling
import Unnest.Proofs.Command.Lines
import Unnest.Proofs.Command.Words
import Unnest.Proofs.Command.Flatten
import Unnest.Proofs.Json.Equality
import Unnest.Proofs.Table.Equality
import Unnest.Proofs.JsonTable.Equality
import Unnest.Proofs.Json.Leaves
import Unnest.Proofs.JsonTable.Pool
import Unnest.Proofs.JsonTable.Spread
import Unnest.Proofs.JsonTable.Descriptor
import Unnest.Proofs.JsonTable.SpreadPath
import Unnest.Proofs.JsonTable.SpreadOrder
import Unnest.Proofs.JsonTable.Extraction
import Unnest.Proofs.Datum.Entries
import Unnest.Proofs.Datum.Equality
import Unnest.Proofs.JsonTable.Idempotence
import Unnest.Proofs.Datum.Conversion
import Unnest.Proofs.Datum.Assembly
import Unnest.Proofs.Datum.RecordedPath
import Unnest.Proofs.Datum.Offence
import Unnest.Proofs.Datum.Inverse
import Unnest.Proofs.Json.LeafCount
import Unnest.Proofs.JsonTable.Gather
import Unnest.Proofs.JsonTable.Enter
import Unnest.Proofs.Binary64.Shortest
import Unnest.Proofs.Json.Grammar.Written
import Unnest.Proofs.Json.Reading
import Unnest.Proofs.JsonTable.Force
import Unnest.Proofs.JsonTable.Reread
import Unnest.Proofs.Profiler.Account
import Unnest.Proofs.Table.Gate
import Unnest.Proofs.JsonTable.Dropped
import Unnest.Proofs.Json.Depth
import Unnest.Proofs.Document.Nesting
import Unnest.Proofs.Table.Import
