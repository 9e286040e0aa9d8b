import AdLibModule.Aplib.Decoder
import AdLibModule.Aplib.Encoder
import AdLibModule.Aplib.Token
import AdLibModule.BitList
import AdLibModule.BitStream
import AdLibModule.Command
import AdLibModule.Compression
import AdLibModule.Container
import AdLibModule.Cursor
import AdLibModule.DecodeError
import AdLibModule.Effect
import AdLibModule.Event
import AdLibModule.Family
import AdLibModule.Grid
import AdLibModule.Header
import AdLibModule.Inspection
import AdLibModule.Instrument
import AdLibModule.InstrumentMacro
import AdLibModule.JsonValue
import AdLibModule.Layout
import AdLibModule.Load
import AdLibModule.Main
import AdLibModule.Options
import AdLibModule.Output
import AdLibModule.PackedBlock
import AdLibModule.Report
import AdLibModule.Settings
import AdLibModule.Sixpack.Decoder
import AdLibModule.Sixpack.Encoder
import AdLibModule.Sixpack.Symbol
import AdLibModule.Sixpack.Token
import AdLibModule.Sixpack.Tree
import AdLibModule.Song
import AdLibModule.SongData
import AdLibModule.Summary
import AdLibModule.Text
import AdLibModule.Version
import AdLibModule.Proofs.Sixpack.NodeTable
import AdLibModule.Proofs.Sixpack.Numbering
import AdLibModule.Proofs.Sixpack.Exchange
import AdLibModule.Proofs.Sixpack.Climb
import AdLibModule.Proofs.Sixpack.Initial
import AdLibModule.Proofs.Sixpack.FullTree
import AdLibModule.Proofs.BitList
import AdLibModule.Proofs.Sixpack.RoundTrip
import AdLibModule.Proofs.Sixpack.Accepted
import AdLibModule.Proofs.Aplib.RoundTrip
import AdLibModule.Proofs.Cursor
import AdLibModule.Proofs.Fetch
import AdLibModule.Proofs.Decodes
import AdLibModule.Proofs.CursorRuns
import AdLibModule.Proofs.SongData
import AdLibModule.Proofs.Header
import AdLibModule.Proofs.HeaderCodec
import AdLibModule.Proofs.PackedBlock
import AdLibModule.Proofs.Grid
import AdLibModule.Proofs.PatternGroup
import AdLibModule.Proofs.Event
import AdLibModule.Proofs.Song
import AdLibModule.Proofs.Load
import AdLibModule.Proofs.ModuleFile
import AdLibModule.Proofs.WellFormed
import AdLibModule.Proofs.StreamFailure
import AdLibModule.Proofs.Failure
import AdLibModule.Proofs.Truncation
import AdLibModule.Proofs.SameContent
import AdLibModule.Proofs.Aplib.Accepted
import AdLibModule.Proofs.Sixpack.Weight
import AdLibModule.Proofs.Sixpack.Counting
import AdLibModule.Proofs.Limit
import AdLibModule.Proofs.Overrun
import AdLibModule.Proofs.SelfDelimiting
import AdLibModule.Proofs.ZeroGroup
import AdLibModule.Proofs.SongLabels
import AdLibModule.Proofs.Sixpack.Levels
import AdLibModule.Proofs.Sixpack.Rescaling
import AdLibModule.Proofs.InstrumentRecords
import AdLibModule.Proofs.MacroRegions
import AdLibModule.Proofs.Tape
import AdLibModule.Proofs.Machine
import AdLibModule.Proofs.Sixpack.Machine
import AdLibModule.Proofs.Aplib.Machine
import AdLibModule.Proofs.Unpacking
import AdLibModule.Proofs.Sixpack.Depth
import AdLibModule.Proofs.GridViews
import AdLibModule.Proofs.GroupLayout
import AdLibModule.Proofs.NoteRange
import AdLibModule.Proofs.Options
import AdLibModule.Proofs.Inspection
import AdLibModule.Proofs.Copies
import AdLibModule.Proofs.Aplib.Gamma
import AdLibModule.Proofs.PatternTable
