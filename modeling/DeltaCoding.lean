import DeltaCoding.AddressCache
import DeltaCoding.Checksum
import DeltaCoding.CodeTable.Basic
import DeltaCoding.CodeTable.OpcodeIndex
import DeltaCoding.CodeTable.Standard
import DeltaCoding.CodeTable.Validity
import DeltaCoding.CommandLine.Arguments
import DeltaCoding.CommandLine.ByteSize
import DeltaCoding.CommandLine.FileTree
import DeltaCoding.CommandLine.Files
import DeltaCoding.CommandLine.Run
import DeltaCoding.Cursor
import DeltaCoding.Decoder.Config
import DeltaCoding.Decoder.Session
import DeltaCoding.Decoder.Sink
import DeltaCoding.Decoder.Stream
import DeltaCoding.Edit
import DeltaCoding.Encoder
import DeltaCoding.Error
import DeltaCoding.Header.File
import DeltaCoding.Header.Progress
import DeltaCoding.Header.Window
import DeltaCoding.Inspect
import DeltaCoding.Instruction.Basic
import DeltaCoding.Instruction.Reader
import DeltaCoding.Main
import DeltaCoding.Match.Compare
import DeltaCoding.Match.Finder
import DeltaCoding.Match.Index
import DeltaCoding.Match.RollingHash
import DeltaCoding.Proofs.AddressCache
import DeltaCoding.Proofs.AddressCost
import DeltaCoding.Proofs.AddressExchange
import DeltaCoding.Proofs.Checksum
import DeltaCoding.Proofs.CodeTable.Lookup
import DeltaCoding.Proofs.CodeTable.Lowest
import DeltaCoding.Proofs.CodeTable.RoundTrip
import DeltaCoding.Proofs.CodeTable.Valid
import DeltaCoding.Proofs.Decoder.Allowance
import DeltaCoding.Proofs.Decoder.Chunking
import DeltaCoding.Proofs.Decoder.Confinement
import DeltaCoding.Proofs.Decoder.Independence
import DeltaCoding.Proofs.Decoder.Limits
import DeltaCoding.Proofs.Decoder.Moving
import DeltaCoding.Proofs.Decoder.Opening
import DeltaCoding.Proofs.Decoder.Placing
import DeltaCoding.Proofs.Decoder.Planning
import DeltaCoding.Proofs.Decoder.RoundTrip
import DeltaCoding.Proofs.Decoder.Safety
import DeltaCoding.Proofs.Decoder.Sessions
import DeltaCoding.Proofs.Decoder.Trace
import DeltaCoding.Proofs.Decoder.Truncation
import DeltaCoding.Proofs.Decoder.Verdict
import DeltaCoding.Proofs.Decoder.Verifying
import DeltaCoding.Proofs.Decoder.Words
import DeltaCoding.Proofs.Edit
import DeltaCoding.Proofs.Encoder
import DeltaCoding.Proofs.Encoder.Refusal
import DeltaCoding.Proofs.Header.Arrival
import DeltaCoding.Proofs.Header.File
import DeltaCoding.Proofs.Header.Reading
import DeltaCoding.Proofs.Header.RoundTrip
import DeltaCoding.Proofs.Header.Words
import DeltaCoding.Proofs.Inspect
import DeltaCoding.Proofs.Inspect.Window
import DeltaCoding.Proofs.Instruction
import DeltaCoding.Proofs.Instruction.Feeding
import DeltaCoding.Proofs.Match.Compare
import DeltaCoding.Proofs.Match.Finder
import DeltaCoding.Proofs.Match.Index
import DeltaCoding.Proofs.Match.Longest
import DeltaCoding.Proofs.Match.Rebuilding
import DeltaCoding.Proofs.Match.RollingHash
import DeltaCoding.Proofs.Match.Scan
import DeltaCoding.Proofs.Parsing
import DeltaCoding.Proofs.Text.JsonArray
import DeltaCoding.Proofs.Text.Utf8
import DeltaCoding.Proofs.Varint
import DeltaCoding.Proofs.Varint.Codec
import DeltaCoding.Proofs.Varint.Forms
import DeltaCoding.Proofs.Varint.Words
import DeltaCoding.Proofs.Window.Body
import DeltaCoding.Proofs.Window.Completion
import DeltaCoding.Proofs.Window.Confinement
import DeltaCoding.Proofs.Window.Copy
import DeltaCoding.Proofs.Window.Cutting
import DeltaCoding.Proofs.Window.Placing
import DeltaCoding.Proofs.Window.Reading
import DeltaCoding.Proofs.Window.Relaying
import DeltaCoding.Proofs.Window.Resuming
import DeltaCoding.Proofs.Window.RoundTrip
import DeltaCoding.Proofs.Window.Safety
import DeltaCoding.Proofs.Window.Shifting
import DeltaCoding.Proofs.Window.Verifying
import DeltaCoding.Proofs.Writer.Acceptance
import DeltaCoding.Proofs.Writer.Closing
import DeltaCoding.Proofs.Writer.Edits
import DeltaCoding.Proofs.Writer.Json
import DeltaCoding.Proofs.Writer.Opcodes
import DeltaCoding.Proofs.Writer.Outline
import DeltaCoding.Proofs.Writer.Overflow
import DeltaCoding.Proofs.Writer.Refusal
import DeltaCoding.Proofs.Writer.TableDelta
import DeltaCoding.Proofs.Writer.Target
import DeltaCoding.Proofs.Writer.Windows
import DeltaCoding.Tape
import DeltaCoding.Text.Blank
import DeltaCoding.Text.ControlSequence
import DeltaCoding.Text.Hex
import DeltaCoding.Text.Utf8
import DeltaCoding.Varint
import DeltaCoding.Window.Body
import DeltaCoding.Window.Copy
import DeltaCoding.Window.Decoder
import DeltaCoding.Window.Progress
import DeltaCoding.Window.Sections
import DeltaCoding.Writer.Basic
import DeltaCoding.Writer.Delta
import DeltaCoding.Writer.Json
import DeltaCoding.Writer.Outline
import DeltaCoding.Writer.TableDelta
