import Stencil.Main
import Stencil.Print
import Stencil.Proofs.Template.Parsing
import Stencil.Sink.BoundedText
import Stencil.Sink.Counter
import Stencil.Sink.RegionSink
import Stencil.Sink.Trace
import Stencil.Sink.Writer
import Stencil.Value
import Stencil.Proofs.Rendering.Honest
import Stencil.Proofs.Template.Flaws
import Stencil.Proofs.Value.BuiltIn
import Stencil.Proofs.Utf8.Decoding
import Stencil.Proofs.Sink.Kept
import Stencil.Proofs.Sink.Truncation
import Stencil.Proofs.Number.Fields
import Stencil.Proofs.Number.Enlargement
import Stencil.Proofs.Number.SmallSplit
import Stencil.Proofs.Sink.Operations
import Stencil.Proofs.Sink.Frame
import Stencil.Proofs.Sink.Measuring
import Stencil.Proofs.Number.Normalizing
import Stencil.Proofs.Template.Quoting
import Stencil.Proofs.Number.Closeness
import Stencil.Proofs.Chore.Testing
import Stencil.Proofs.Value.CString
import Stencil.Proofs.Number.IntegerText
import Stencil.Proofs.Number.FloatLayout
import Stencil.Proofs.Sink.Alike
import Stencil.Proofs.Sink.Legible
import Stencil.Proofs.Sink.LongestFit
import Stencil.Proofs.Value.Completion
import Stencil.Proofs.Chore.Discipline
import Stencil.Proofs.Number.Reduction
import Stencil.Proofs.Number.LargeSplit
import Stencil.Proofs.Number.Order
import Stencil.Proofs.Number.Words
import Stencil.Proofs.Template.Joining
import Stencil.Proofs.Value.Fault
import Stencil.Proofs.Chore.Summary
import Stencil.Proofs.Value.HexDump
