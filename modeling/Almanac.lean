import Almanac.Text.Pieces
import Almanac.Decimal.Layout
import Almanac.Decimal.Reading
import Almanac.Json.Printer
import Almanac.Json.Decoding
import Almanac.Diagnostic.Basic
import Almanac.Table.Builtin
import Almanac.Dataset.Records
import Almanac.Query.Parser
import Almanac.Weather.Archive
import Almanac.Weather.Geocoding
import Almanac.Weather.Unit
import Almanac.Evaluation.Action
import Almanac.Evaluation.Basic
import Almanac.Completion.Basic
import Almanac.Completion.Suggestion
import Almanac.Display.Color
import Almanac.Display.Grid
import Almanac.Display.Histogram
import Almanac.Display.Output
import Almanac.Display.Panel
import Almanac.Config
import Almanac.History
import Almanac.CommandLine.Arguments
import Almanac.CommandLine.Invocation
import Almanac.CommandLine.Host
import Almanac.CommandLine.Run
import Almanac.Main
import Almanac.Proofs.Query.Listing
import Almanac.Proofs.Query.Conformance
import Almanac.Proofs.Evaluation.Rendering
import Almanac.Proofs.Evaluation.Protocol
import Almanac.Proofs.Evaluation.Parts
import Almanac.Proofs.Evaluation.ArchiveDays
import Almanac.Proofs.Dataset.Reachable
import Almanac.Proofs.Dataset.Merging
import Almanac.Proofs.Query.Composition
import Almanac.Proofs.Query.Encoding
import Almanac.Proofs.Query.Growth
import Almanac.Proofs.Query.Separation
import Almanac.Proofs.Query.Spacing
import Almanac.Proofs.Completion.Agreement
import Almanac.Proofs.Completion.Choice
import Almanac.Proofs.Completion.Overload
import Almanac.Proofs.Table.RoundTrip
import Almanac.Proofs.History.Runs
import Almanac.Proofs.Query.Faults
import Almanac.Proofs.Completion.Calls
import Almanac.Proofs.Completion.Blank
import Almanac.Proofs.Query.DateTexts
import Almanac.Proofs.Completion.RowNames
import Almanac.Proofs.Dataset.Reimport
import Almanac.Proofs.Dataset.Removal
import Almanac.Proofs.Dataset.Histogram
import Almanac.Proofs.Dataset.Bounds
import Almanac.Proofs.Evaluation.Printing
import Almanac.Proofs.Table.Index
import Almanac.Proofs.Query.Selected
import Almanac.Proofs.Query.Unresolved
import Almanac.Proofs.Query.Stretch
import Almanac.Proofs.Evaluation.Cells
import Almanac.Proofs.Evaluation.Chronology
import Almanac.Proofs.Completion.Hint
