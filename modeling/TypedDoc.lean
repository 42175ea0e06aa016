import TypedDoc.Charset
import TypedDoc.Config
import TypedDoc.Config.File
import TypedDoc.Document
import TypedDoc.Envelope
import TypedDoc.Error
import TypedDoc.Gzip.Bits
import TypedDoc.Gzip.Crc32
import TypedDoc.Gzip.Delivery
import TypedDoc.Gzip.Huffman
import TypedDoc.Gzip.Inflate
import TypedDoc.Gzip.Member
import TypedDoc.Header
import TypedDoc.Host.Cell
import TypedDoc.Host.Directory
import TypedDoc.Host.Faults
import TypedDoc.Host.FilePath
import TypedDoc.Host.RawPath
import TypedDoc.Host.Source
import TypedDoc.Ieee
import TypedDoc.Kind
import TypedDoc.Proofs.Document.Blame
import TypedDoc.Proofs.Document.Canonical
import TypedDoc.Proofs.Document.Cuts
import TypedDoc.Proofs.Document.Encode
import TypedDoc.Proofs.Document.Lookups
import TypedDoc.Proofs.Document.Marks
import TypedDoc.Proofs.Document.Member
import TypedDoc.Proofs.Document.Read
import TypedDoc.Proofs.Document.RoundTrip
import TypedDoc.Proofs.Document.Taken
import TypedDoc.Proofs.Document.Write
import TypedDoc.Proofs.Gzip.Codec
import TypedDoc.Proofs.Gzip.Delivery
import TypedDoc.Proofs.Gzip.Inflate
import TypedDoc.Proofs.Gzip.Member
import TypedDoc.Proofs.Gzip.Stored
import TypedDoc.Proofs.Host.Begun
import TypedDoc.Proofs.Host.Directory
import TypedDoc.Proofs.Host.Draft
import TypedDoc.Proofs.Host.Drafts
import TypedDoc.Proofs.Host.Extension
import TypedDoc.Proofs.Host.FilePath
import TypedDoc.Proofs.Host.Source
import TypedDoc.Proofs.Host.Writing
import TypedDoc.Proofs.Registry
import TypedDoc.Proofs.Store.Calls
import TypedDoc.Proofs.Store.Clean
import TypedDoc.Proofs.Store.Failure
import TypedDoc.Proofs.Store.Nested
import TypedDoc.Proofs.Store.Shared
import TypedDoc.Proofs.Text.Utf16
import TypedDoc.Proofs.Text.Utf8
import TypedDoc.Proofs.Text.WellFormed
import TypedDoc.Proofs.Timestamp.Calendar
import TypedDoc.Proofs.Timestamp.Chronology
import TypedDoc.Proofs.Timestamp.Fields
import TypedDoc.Proofs.Timestamp.Instant
import TypedDoc.Proofs.Timestamp.Wire
import TypedDoc.Proofs.Value.Budget
import TypedDoc.Proofs.Value.Canonical
import TypedDoc.Proofs.Value.Cleared
import TypedDoc.Proofs.Value.Closed
import TypedDoc.Proofs.Value.Course
import TypedDoc.Proofs.Value.Depth
import TypedDoc.Proofs.Value.Elements
import TypedDoc.Proofs.Value.Entries
import TypedDoc.Proofs.Value.Indexed
import TypedDoc.Proofs.Value.Layout
import TypedDoc.Proofs.Value.Lookups
import TypedDoc.Proofs.Value.Marks
import TypedDoc.Proofs.Value.Objects
import TypedDoc.Proofs.Value.Paths
import TypedDoc.Proofs.Value.Reading
import TypedDoc.Proofs.Value.RoundTrip
import TypedDoc.Proofs.Value.Size
import TypedDoc.Proofs.Value.Spelling
import TypedDoc.Proofs.Value.Tree
import TypedDoc.Proofs.Value.Violations
import TypedDoc.Proofs.Value.Writing
import TypedDoc.Proofs.Wire.Closed
import TypedDoc.Proofs.Wire.Codec
import TypedDoc.Proofs.Wire.Cuts
import TypedDoc.Proofs.Wire.Items
import TypedDoc.Proofs.Wire.Layout
import TypedDoc.Proofs.Wire.Offers
import TypedDoc.Proofs.Wire.Outcome
import TypedDoc.Proofs.Wire.Reading
import TypedDoc.Proofs.Wire.Supply
import TypedDoc.Registry
import TypedDoc.Store
import TypedDoc.Text.Hex
import TypedDoc.Text.Utf16
import TypedDoc.Text.Utf8
import TypedDoc.Timestamp.Basic
import TypedDoc.Timestamp.Calendar
import TypedDoc.Timestamp.Chronology
import TypedDoc.Timestamp.Instant
import TypedDoc.Timestamp.Wire
import TypedDoc.Toml.Node
import TypedDoc.Toml.Quoted
import TypedDoc.Toml.Reader
import TypedDoc.Toml.Scalar
import TypedDoc.Toml.Text
import TypedDoc.Value.Basic
import TypedDoc.Value.Container
import TypedDoc.Value.Decode
import TypedDoc.Value.Encode
import TypedDoc.Value.Entries
import TypedDoc.Value.Indexed
import TypedDoc.Value.Scalar
import TypedDoc.Value.Walk
import TypedDoc.Wire.BigEndian
import TypedDoc.Wire.BigEndian.Lemmas
import TypedDoc.Wire.Buffer
import TypedDoc.Wire.Codec
import TypedDoc.Wire.Sink
import TypedDoc.Wire.Supply
