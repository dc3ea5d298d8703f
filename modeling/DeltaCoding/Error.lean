import DeltaCoding.Text.Hex

/-!
# What can go wrong

A parse step ends in one of three ways beside success: the input stops too early, the input can
never become valid, or a precondition of the step does not hold. Errors are causes with their
figures; the wording of each is in its `message`.

* `FormatError` says why a delta is not valid.
* `ParseStop` says why a parse step yields no value.
* `DecodeError` is a failed decoding session: a format error with its place in the stream, a size
  limit, a call out of order, or an output that does not take the bytes.
* `EncodeError` is a failed writer or encoder call.
-/

namespace DeltaCoding

open Text

/-- The parts of a window body. An interleaved body has one part only. -/
inductive Section where
  | data
  | instructions
  | addresses
  | interleaved
deriving DecidableEq

namespace Section

def name : Section → String
  | data => "data"
  | instructions => "instructions"
  | addresses => "addresses"
  | interleaved => "interleaved"

end Section

/-- The bounds that a decoder puts on what it produces. -/
inductive SizeLimit where
  | targetWindow
  | targetFile
  | plannedTargetFile
deriving DecidableEq

namespace SizeLimit

def name : SizeLimit → String
  | targetWindow => "target window size"
  | targetFile => "target file size"
  | plannedTargetFile => "planned target file size"

end SizeLimit

/-- Why a code table is refused. -/
inductive TableFault where
  | wrongLength (expected actual : Nat)
  | unknownInstruction (opcode instruction : Nat)
  | modeTooLarge (opcode mode maxMode : Nat)
  | noopWithSize (opcode : Nat)
  | modeWithoutCopy (opcode : Nat)
  | missingAdd
  | missingRun
  | missingCopy (mode : Nat)
  | nested
deriving DecidableEq

namespace TableFault

def message : TableFault → String
  | wrongLength expected actual => s!"expected {expected} bytes, got {actual}"
  | unknownInstruction opcode instruction =>
    s!"opcode {opcode} has instruction type {instruction}"
  | modeTooLarge opcode mode maxMode => s!"opcode {opcode} uses mode {mode} above maximum {maxMode}"
  | noopWithSize opcode => s!"opcode {opcode} has a NOOP with nonzero size"
  | modeWithoutCopy opcode => s!"opcode {opcode} has a mode on a non-COPY instruction"
  | missingAdd => "no opcode encodes ADD with an explicit size"
  | missingRun => "no opcode encodes RUN with an explicit size"
  | missingCopy mode => s!"no opcode encodes COPY mode {mode} with an explicit size"
  | nested => "nested custom code table"

end TableFault

/-- Why a delta is not valid. -/
inductive FormatError where
  | badMagic (index : Nat) (found : UInt8)
  | unsupportedVersion (byte : UInt8)
  | secondaryCompression
  | unsupportedCompression (indicator : UInt8)
  | invalidVarint
  | sourceAndTarget
  | targetNotAllowed
  | sourceSegmentOutOfRange (position length bound : Nat)
  | limitExceeded (limit : SizeLimit) (size max : Nat)
  | encodingLengthMismatch (declared actual : Nat)
  | invalidMode (mode : Nat)
  | invalidAddress (address : Int) (here : Nat)
  | addressBeyondHere (address here : Nat)
  | targetWindowOverflow (size remaining : Nat)
  | targetLengthMismatch (expected actual : Nat)
  | sectionExhausted (part : Section)
  | excessData (part : Section) (count : Nat)
  | checksumMismatch (expected actual : Nat)
  | truncated
  | invalidCacheSizes (near same : Nat)
  | invalidCodeTable (fault : TableFault)
deriving DecidableEq

namespace FormatError

def message : FormatError → String
  | badMagic index found => s!"bad magic byte {hexByte found} at header position {index}"
  | unsupportedVersion byte => s!"unsupported VCDIFF version byte {hexByte byte}"
  | secondaryCompression => "secondary compression is not supported"
  | unsupportedCompression indicator =>
    s!"unsupported compression in delta indicator {hexByte indicator}"
  | invalidVarint => "invalid variable-length integer"
  | sourceAndTarget => "window sets both VCD_SOURCE and VCD_TARGET"
  | targetNotAllowed => "VCD_TARGET window found but target references are disabled"
  | sourceSegmentOutOfRange position length bound =>
    s!"source segment of {length} bytes at {position} exceeds the {bound} bytes available"
  | limitExceeded limit size max => s!"{limit.name} {size} exceeds the maximum of {max}"
  | encodingLengthMismatch declared actual =>
    s!"delta encoding length {declared} does not match computed length {actual}"
  | invalidMode mode => s!"invalid address mode {mode}"
  | invalidAddress address here => s!"invalid copy address {address} at here address {here}"
  | addressBeyondHere address here =>
    s!"copy address {address} is beyond current position {here}"
  | targetWindowOverflow size remaining =>
    s!"instruction of size {size} exceeds the {remaining} bytes left in the target window"
  | targetLengthMismatch expected actual =>
    s!"target window length mismatch: declared {expected}, decoded {actual}"
  | sectionExhausted part =>
    s!"{part.name} section ended before the target window was complete"
  | excessData part count => s!"{count} unconsumed bytes left in the {part.name} section"
  | checksumMismatch expected actual =>
    s!"checksum mismatch: expected {hexWord expected}, computed {hexWord actual}" ++
      " (possibly wrong dictionary)"
  | truncated => "unexpected end of delta stream"
  | invalidCacheSizes near same =>
    s!"invalid cache sizes: near {near} + same {same} exceeds 254"
  | invalidCodeTable fault => s!"invalid code table: {fault.message}"

end FormatError

/-- Why a parse step yields no value. -/
inductive ParseStop where
  /-- The input ends inside the item. More input may complete it. -/
  | needMoreData
  /-- No continuation of the input makes the item valid. -/
  | malformed (error : FormatError)
  /-- A precondition of the step does not hold, so that it has no answer at all. -/
  | breach
deriving DecidableEq

/-- A call that does not fit the state of a decoding session. -/
inductive DecoderMisuse where
  | settingsWhileDecoding
  | startedTwice
  | chunkBeforeStart
  | finishBeforeStart
deriving DecidableEq

namespace DecoderMisuse

def message : DecoderMisuse → String
  | settingsWhileDecoding => "decoder settings cannot change while decoding"
  | startedTwice => "start_decoding called twice without finish_decoding"
  | chunkBeforeStart => "decode_chunk called before start_decoding"
  | finishBeforeStart => "finish_decoding called before start_decoding"

end DecoderMisuse

/-- How a decoding call fails. -/
inductive DecodeError where
  /-- The delta is not valid; the fault is `offset` bytes into the stream. -/
  | format (offset : Nat) (error : FormatError)
  /-- A window would exceed a size limit. -/
  | limitExceeded (offset : Nat) (limit : SizeLimit) (size max : Nat)
  /-- The call does not fit the session's state. -/
  | usage (misuse : DecoderMisuse)
  /-- The output does not take the decoded bytes. -/
  | sinkFull
  /-- A precondition inside the decoder does not hold, so that the call has no answer. -/
  | breach
deriving DecidableEq

namespace DecodeError

/-- Puts a format error at its place in the stream. Size limits are errors of their own. -/
def locate (offset : Nat) : FormatError → DecodeError
  | .limitExceeded limit size max => .limitExceeded offset limit size max
  | error => .format offset error

/-- Where in the stream the error was found, if it is an error of the stream. -/
def offset? : DecodeError → Option Nat
  | format offset _ => some offset
  | limitExceeded offset _ _ _ => some offset
  | _ => none

def message : DecodeError → String
  | format offset error => s!"malformed delta at offset {offset}: {error.message}"
  | limitExceeded offset limit size max =>
    s!"limit exceeded at offset {offset}: {limit.name} {size} exceeds the maximum of {max}"
  | usage misuse => s!"usage error: {misuse.message}"
  | sinkFull => "I/O error writing decoded output: sink full"
  | breach => "precondition violated"

end DecodeError

/-- A call that does not fit the state of a writer or an encoding session. -/
inductive EncoderMisuse where
  | windowAlreadyOpen
  | writerFinished
  | instructionBeforeInit
  | instructionAfterFinish
  | instructionOutsideWindow
  | finishInsideWindow
  | addressBeyondPosition
  | startedTwice
  | chunkBeforeStart
  | finishBeforeStart
  | sinkRefused
deriving DecidableEq

namespace EncoderMisuse

def message : EncoderMisuse → String
  | windowAlreadyOpen => "window already open"
  | writerFinished => "writer already finished"
  | instructionBeforeInit => "instruction before init"
  | instructionAfterFinish => "instruction after finish"
  | instructionOutsideWindow => "instruction outside an open window"
  | finishInsideWindow => "finish with an open window"
  | addressBeyondPosition => "copy address beyond current position"
  | startedTwice => "start_encoding called twice without finish_encoding"
  | chunkBeforeStart => "encode_chunk called before start_encoding"
  | finishBeforeStart => "finish_encoding called before start_encoding"
  | sinkRefused => "sink refused"

end EncoderMisuse

/-- A quantity that has to fit a 31-bit field of the format. -/
inductive BoundedField where
  | sourceSegmentLength
  | targetWindowLength
  | addSize
  | copyAddress
  | targetSegmentPosition
  | dataSectionLength
  | instructionSectionLength
  | addressSectionLength
deriving DecidableEq

namespace BoundedField

def name : BoundedField → String
  | sourceSegmentLength => "source segment length"
  | targetWindowLength => "target window length"
  | addSize => "ADD size"
  | copyAddress => "copy address"
  | targetSegmentPosition => "target segment position"
  | dataSectionLength => "data section length"
  | instructionSectionLength => "instruction section length"
  | addressSectionLength => "address section length"

end BoundedField

/-- How a writer or encoder call fails. -/
inductive EncodeError where
  /-- The call does not fit the writer's state. -/
  | usage (misuse : EncoderMisuse)
  /-- A quantity does not fit its field. -/
  | tooLarge (field : BoundedField) (value : Nat)
  /-- No opcode of the code table stands for the instruction. -/
  | noOpcode (instruction mode : Nat)
  /-- The code table or its cache sizes are not valid. -/
  | codeTable (error : FormatError)
deriving DecidableEq

namespace EncodeError

def message : EncodeError → String
  | usage misuse => s!"usage error: {misuse.message}"
  | tooLarge field value => s!"{field.name} {value} does not fit in a VCDIFF 32-bit field"
  | noOpcode instruction mode =>
    s!"code table has no opcode for instruction {instruction} with mode {mode}"
  | codeTable error => error.message

end EncodeError

end DeltaCoding
