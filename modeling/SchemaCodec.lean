import SchemaCodec.Main
import SchemaCodec.Proofs.Run.Depth
import SchemaCodec.Proofs.Schema.SideView
import SchemaCodec.Proofs.Schema.WellFormed
import SchemaCodec.Proofs.Run.FaultMode
import SchemaCodec.Proofs.Run.FailFast
import SchemaCodec.Proofs.Number.Equal
import SchemaCodec.Proofs.Run.Success
import SchemaCodec.Proofs.Schema.Identity
import SchemaCodec.Proofs.Run.Tags
import SchemaCodec.Proofs.Run.UnionSearch
import SchemaCodec.Proofs.Run.Layout
import SchemaCodec.Proofs.Run.OutputSide
import SchemaCodec.Proofs.Run.RoundTrip
import SchemaCodec.Proofs.Run.FaultOrigin
import SchemaCodec.Proofs.Run.Failure
import SchemaCodec.Proofs.Run.Encodable
import SchemaCodec.Proofs.Run.Termination
import SchemaCodec.Proofs.Run.Rejection
import SchemaCodec.Proofs.Run.Admission
import SchemaCodec.Proofs.Run.StartSide
import SchemaCodec.Proofs.Run.EncodedShape
import SchemaCodec.Proofs.Run.UnionOrder
import SchemaCodec.Proofs.Schema.Copy
import SchemaCodec.Proofs.Run.Awaiting
import SchemaCodec.Proofs.Run.AtOnce
import SchemaCodec.Proofs.Checked
import SchemaCodec.Proofs.Document.AliasSearch
import SchemaCodec.Proofs.Run.Ending
import SchemaCodec.Proofs.Schema.OpenCells
import SchemaCodec.Proofs.Document.Compile
import SchemaCodec.Proofs.Document.Definitions
import SchemaCodec.Proofs.Session
import SchemaCodec.Proofs.Document.AliasCycles
import SchemaCodec.Proofs.Document.Aliases
import SchemaCodec.Proofs.Document.LoadedRuns
import SchemaCodec.Proofs.Document.References
import SchemaCodec.Proofs.Run.Alongside
import SchemaCodec.Proofs.Run.Level
import SchemaCodec.Proofs.Run.Trace
import SchemaCodec.Proofs.Run.Forbidden
import SchemaCodec.Proofs.Value.Parts
import SchemaCodec.Proofs.Run.FaultPlace
import SchemaCodec.Proofs.Run.Upheld
import SchemaCodec.Proofs.Run.Tightening
import SchemaCodec.Proofs.Value.Reordering
import SchemaCodec.Proofs.Run.MemberOrder
import SchemaCodec.Proofs.Document.FirstUse
import SchemaCodec.Proofs.Run.Thunks
import SchemaCodec.Proofs.Schema.WellBuilt
import SchemaCodec.Proofs.Run.Positions
import SchemaCodec.Proofs.Run.StructRun
import SchemaCodec.Proofs.Value.Written
import SchemaCodec.Proofs.Run.Kept
import SchemaCodec.Proofs.CommandLine.Reporting
import SchemaCodec.Proofs.Report.Leaves
import SchemaCodec.Proofs.Pairing
import SchemaCodec.Proofs.Schema.Discriminated
import SchemaCodec.Proofs.Run.Discriminated
import SchemaCodec.Proofs.Run.Blame
import SchemaCodec.Proofs.Run.Records
import SchemaCodec.Proofs.Report.Collapse
import SchemaCodec.Proofs.Report.Drawing
import SchemaCodec.Proofs.Regex.Match
import SchemaCodec.Proofs.Regex.Language
import SchemaCodec.Proofs.Schema.TemplateTexts
import SchemaCodec.Proofs.Run.Templates
import SchemaCodec.Proofs.Schema.Distribution
import SchemaCodec.Proofs.Run.Choices
import SchemaCodec.Proofs.Run.Weakening
import SchemaCodec.Proofs.Run.Extension
import SchemaCodec.Proofs.Run.Attachment
import SchemaCodec.Proofs.Run.Splitting
import SchemaCodec.Proofs.Schema.OwnSide
import SchemaCodec.Proofs.Text.Pieces
import SchemaCodec.Proofs.Run.TextTransforms
import SchemaCodec.Proofs.Number.Whole
import SchemaCodec.Proofs.Value.RereadJson
import SchemaCodec.Proofs.Instant.Calendar
import SchemaCodec.Proofs.Instant.Text
import SchemaCodec.Proofs.Run.DateTexts
import SchemaCodec.Proofs.Text.Trimming
import SchemaCodec.Proofs.Number.Texts
import SchemaCodec.Proofs.Run.NumberTexts
import SchemaCodec.Proofs.Schema.TupleParts
import SchemaCodec.Proofs.Symbol
import SchemaCodec.Proofs.Schema.TagPartition
import SchemaCodec.Proofs.Run.Notes
import SchemaCodec.Proofs.Run.TupleVisits
import SchemaCodec.Proofs.Run.UnionFailure
