import Hessian.Bytes
import Hessian.Date
import Hessian.Decimal
import Hessian.Declaration.Angle
import Hessian.Declaration.Basic
import Hessian.Declaration.Binding
import Hessian.Declaration.Code
import Hessian.Declaration.Fault
import Hessian.Declaration.Lexeme
import Hessian.Declaration.Literal
import Hessian.Declaration.Part
import Hessian.Declaration.Plain
import Hessian.Declaration.Reading
import Hessian.Declaration.Setting
import Hessian.Declaration.Token
import Hessian.Decoder.Container
import Hessian.Decoder.Scalar
import Hessian.Decoder.State
import Hessian.Decoder.Text
import Hessian.Decoder.Value
import Hessian.Double.Basic
import Hessian.Double.Rounding
import Hessian.Double.Shortest
import Hessian.Encoder.Container
import Hessian.Encoder.Scalar
import Hessian.Encoder.State
import Hessian.Encoder.Text
import Hessian.Encoder.Value
import Hessian.Error
import Hessian.Json.Basic
import Hessian.Json.Conversion
import Hessian.Json.Wire
import Hessian.Lead
import Hessian.Pairs
import Hessian.Positional
import Hessian.Proofs.Declaration.Derived
import Hessian.Proofs.Declaration.Record
import Hessian.Proofs.Declaration.Setting
import Hessian.Proofs.Decoder.Blame
import Hessian.Proofs.Decoder.Bounded
import Hessian.Proofs.Decoder.Limit
import Hessian.Proofs.Decoder.Loop
import Hessian.Proofs.Decoder.Mirrors
import Hessian.Proofs.Decoder.Reader
import Hessian.Proofs.Decoder.Reads
import Hessian.Proofs.Decoder.Step
import Hessian.Proofs.Decoder.Unexpected
import Hessian.Proofs.Decoder.Value
import Hessian.Proofs.Decoder.Yields
import Hessian.Proofs.Double.Nearest
import Hessian.Proofs.Double.Whole
import Hessian.Proofs.Encoder.Lawful
import Hessian.Proofs.Encoder.Refusal
import Hessian.Proofs.Encoder.Step
import Hessian.Proofs.Encoder.Success
import Hessian.Proofs.Grammar.Basic
import Hessian.Proofs.Grammar.Chunked
import Hessian.Proofs.Grammar.Complete
import Hessian.Proofs.Grammar.Sound
import Hessian.Proofs.Grammar.Written
import Hessian.Proofs.Json.Basic
import Hessian.Proofs.Json.Members
import Hessian.Proofs.Json.Places
import Hessian.Proofs.Json.Representable
import Hessian.Proofs.Json.Wire
import Hessian.Proofs.Lead
import Hessian.Proofs.Pairs
import Hessian.Proofs.RoundTrip.Binary
import Hessian.Proofs.RoundTrip.ByHand
import Hessian.Proofs.RoundTrip.Chunks
import Hessian.Proofs.RoundTrip.Clock
import Hessian.Proofs.RoundTrip.DateUnit
import Hessian.Proofs.RoundTrip.Datum
import Hessian.Proofs.RoundTrip.Definition
import Hessian.Proofs.RoundTrip.Instant
import Hessian.Proofs.RoundTrip.RawString
import Hessian.Proofs.RoundTrip.Reencoding
import Hessian.Proofs.RoundTrip.Scalar
import Hessian.Proofs.RoundTrip.Session
import Hessian.Proofs.RoundTrip.Shortest
import Hessian.Proofs.RoundTrip.Text
import Hessian.Proofs.RoundTrip.Value
import Hessian.Proofs.Schema.Agreement
import Hessian.Proofs.Schema.ByName
import Hessian.Proofs.Schema.Collection
import Hessian.Proofs.Schema.Conversion
import Hessian.Proofs.Schema.Depth
import Hessian.Proofs.Schema.Extension
import Hessian.Proofs.Schema.Fits
import Hessian.Proofs.Schema.Image
import Hessian.Proofs.Schema.Layer
import Hessian.Proofs.Session.Decoding
import Hessian.Proofs.Session.Encoding
import Hessian.Proofs.Text.Lossy
import Hessian.Proofs.Text.Scan
import Hessian.Proofs.Text.Splits
import Hessian.Proofs.Text.Utf16
import Hessian.Proofs.Trace.Basic
import Hessian.Proofs.Trace.Reading
import Hessian.Proofs.Trace.Reference
import Hessian.Proofs.Trace.Sound
import Hessian.Proofs.Trace.Visits
import Hessian.Proofs.Value.Equality
import Hessian.Proofs.Value.Measure
import Hessian.Proofs.Value.Norm
import Hessian.Proofs.Value.Parts
import Hessian.Proofs.Value.Search
import Hessian.Schema.Basic
import Hessian.Schema.Catalog
import Hessian.Schema.Reading
import Hessian.Schema.Writing
import Hessian.Session.Decoding
import Hessian.Session.Encoding
import Hessian.Text.Character
import Hessian.Text.Quoted
import Hessian.Text.Unicode
import Hessian.Text.Unmarked
import Hessian.Value.Access
import Hessian.Value.Basic
import Hessian.Value.Description
import Hessian.Value.Hash
