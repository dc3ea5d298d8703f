import DeltaCoding.Header.File
import DeltaCoding.Varint

/-!
# The window header

A window names the source segment that its COPYs refer to, the length of its delta encoding, the
length of the target that it produces, and the lengths of its three sections, with a checksum if its
indicator says so. The length of the delta encoding is redundant: it has to agree with what follows.

Header fields are read one by one. A `HeaderStep` that stops leaves the state behind the last field
that was read, so that the state's offset says where the trouble is. `WindowHeader.parse` reads all
fields; `WindowHeader.toBytes` writes them.
-/

namespace DeltaCoding

/-! ## What a header says -/

/-- Where the bytes come from that the COPYs of a window refer to. -/
inductive SourceSegment where
  /-- There is no source segment. -/
  | none
  /-- A part of the dictionary. -/
  | dictionary (position length : Nat)
  /-- A part of the target that earlier windows have produced. -/
  | target (position length : Nat)
deriving DecidableEq, Inhabited

namespace SourceSegment

def length : SourceSegment → Nat
  | none => 0
  | dictionary _ length => length
  | target _ length => length

end SourceSegment

/-- The lengths of the three sections, and the checksum of the window's target. -/
structure SectionLengths where
  data : Nat
  instructions : Nat
  addresses : Nat
  checksum : Option Nat
deriving DecidableEq, Inhabited

namespace SectionLengths

/-- A number, for which a size of 32 bits can be too small. -/
def total (sections : SectionLengths) : Nat :=
  sections.data + sections.instructions + sections.addresses

/-- All bytes are in the instruction section, as in an interleaved window. -/
def instructionsOnly (sections : SectionLengths) : Bool :=
  sections.data == 0 && sections.addresses == 0

end SectionLengths

/-- The bits of the window indicator that mean something. -/
structure WindowIndicator where
  source : Bool
  target : Bool
  checksum : Bool
deriving DecidableEq

namespace WindowIndicator

def ofByte (byte : UInt8) : WindowIndicator where
  source := byte &&& 1 ≠ 0
  target := byte &&& 2 ≠ 0
  checksum := byte &&& 4 ≠ 0

def toByte (indicator : WindowIndicator) : UInt8 :=
  (if indicator.source then 1 else 0) + (if indicator.target then 2 else 0) +
    (if indicator.checksum then 4 else 0)

end WindowIndicator

/-! ## Reading fields -/

/-- How far a window header has been read. -/
structure HeaderState where
  cursor : Cursor
  /-- The declared length of the delta encoding. -/
  deltaLength : Nat
  /-- The stream offset at which the delta encoding starts. -/
  deltaStart : Nat
deriving DecidableEq

/-- A step that reads header fields. If it stops, the state still tells how far it came. -/
abbrev HeaderStep (α : Type) := ExceptT ParseStop (StateM HeaderState) α

namespace HeaderState

/-- Nothing has been read yet. As long as no length is declared, the delta encoding has length zero
and starts here. -/
def ofCursor (c : Cursor) : HeaderState := ⟨c, 0, c.offset⟩

end HeaderState

namespace HeaderStep

def field {α : Type} (parser : Parser α) : HeaderStep α :=
  ExceptT.mk fun s =>
    match parser s.cursor with
    | .ok (a, c) => (.ok a, { s with cursor := c })
    | .error stop => (.error stop, s)

def malformed {α : Type} (error : FormatError) : HeaderStep α :=
  throw (.malformed error)

def declaredLength : HeaderStep Nat := do
  pure (← get).deltaLength

/-- The number of bytes read since the delta encoding started, which is not ahead. -/
def lengthRead : HeaderStep Nat := do
  let s ← get
  if s.cursor.offset < s.deltaStart then throw .breach else pure (s.cursor.offset - s.deltaStart)

def require : Except FormatError Unit → HeaderStep Unit
  | .ok () => pure ()
  | .error error => malformed error

/-- Reads the place of a source segment within `bound` bytes, as a position and a length. The length
is written first, and it is checked before the position is read. -/
def segmentRange (bound : Nat) : HeaderStep (Nat × Nat) := do
  let length ← field Varint.parseInt32
  if length > bound then malformed (.sourceSegmentOutOfRange 0 length bound)
  let position ← field Varint.parseInt32
  -- An empty segment may stand at the very end.
  if (position ≥ bound ∧ length > 0) ∨ position + length > bound then
    malformed (.sourceSegmentOutOfRange position length bound)
  pure (position, length)

/-- Reads the indicator and the source segment. A segment of the dictionary lies within
`dictionarySize` bytes, one of the target within the `decoded` bytes of earlier windows. -/
def indicatorAndSegment (dictionarySize decoded : Nat) (allowTarget : Bool) :
    HeaderStep (WindowIndicator × SourceSegment) := do
  let indicator := WindowIndicator.ofByte (← field Parser.byte)
  match indicator.source, indicator.target with
  | true, true => malformed .sourceAndTarget
  | false, false => pure (indicator, .none)
  | true, false =>
    let (position, length) ← segmentRange dictionarySize
    pure (indicator, .dictionary position length)
  | false, true =>
    if allowTarget then
      let (position, length) ← segmentRange decoded
      pure (indicator, .target position length)
    else malformed .targetNotAllowed

/-- Reads the length of the delta encoding, which starts right behind it, and the target length. -/
def windowLengths : HeaderStep Nat := do
  let deltaLength ← field Varint.parseInt32
  modify fun s => { s with deltaLength, deltaStart := s.cursor.offset }
  field Varint.parseInt32

/-- Reads the delta indicator, which must not ask for secondary compression of any section. -/
def deltaIndicator : HeaderStep Unit := do
  let byte ← field Parser.byte
  if byte &&& 7 ≠ 0 then malformed (.unsupportedCompression byte)

def checksum? (present : Bool) : HeaderStep (Option Nat) :=
  if present then some <$> field Varint.parseUInt32 else pure none

/-- Reads the section lengths and checks that the delta encoding is as long as declared. -/
def sectionLengths (hasChecksum : Bool) : HeaderStep SectionLengths := do
  let data ← field Varint.parseInt32
  let instructions ← field Varint.parseInt32
  let addresses ← field Varint.parseInt32
  let checksum ← checksum? hasChecksum
  let sections : SectionLengths := { data, instructions, addresses, checksum }
  -- The fields from the target length to here, and the sections still to come.
  let actual := (← lengthRead) + sections.total
  let declared ← declaredLength
  if actual ≠ declared then malformed (.encodingLengthMismatch declared actual)
  pure sections

end HeaderStep

/-! ## Whole headers -/

/-- The header of a window. -/
structure WindowHeader where
  segment : SourceSegment
  targetLength : Nat
  sections : SectionLengths
deriving DecidableEq, Inhabited

namespace WindowHeader

/-- What a header is read against. -/
structure Context where
  version : Version
  dictionarySize : Nat
  /-- The number of target bytes that earlier windows have produced. -/
  decoded : Nat
  allowTarget : Bool

/-- Reads a window header. `check` may refuse a target length before anything else is read. -/
def parse (context : Context) (check : Nat → Except FormatError Unit) :
    HeaderStep WindowHeader := do
  let (indicator, segment) ← HeaderStep.indicatorAndSegment context.dictionarySize
    context.decoded context.allowTarget
  let targetLength ← HeaderStep.windowLengths
  HeaderStep.require (check targetLength)
  HeaderStep.deltaIndicator
  let sections ← HeaderStep.sectionLengths
    (context.version.hasExtensions && indicator.checksum)
  pure { segment, targetLength, sections }

def isInterleaved (header : WindowHeader) (version : Version) : Bool :=
  version.hasExtensions && header.sections.instructionsOnly

def indicator (header : WindowHeader) : WindowIndicator :=
  let checksum := header.sections.checksum.isSome
  match header.segment with
  | .none => ⟨false, false, checksum⟩
  | .dictionary _ _ => ⟨true, false, checksum⟩
  | .target _ _ => ⟨false, true, checksum⟩

def segmentBytes : SourceSegment → List UInt8
  | .none => []
  | .dictionary position length => Varint.encode length ++ Varint.encode position
  | .target position length => Varint.encode length ++ Varint.encode position

def checksumBytes : Option Nat → List UInt8
  | none => []
  | some checksum => Varint.encode checksum

def deltaFields (header : WindowHeader) : List UInt8 :=
  Varint.encode header.targetLength ++ 0 :: (Varint.encode header.sections.data ++
    (Varint.encode header.sections.instructions ++ (Varint.encode header.sections.addresses ++
      checksumBytes header.sections.checksum)))

/-- The length of the delta encoding: the fields behind it and all sections. -/
def deltaLength (header : WindowHeader) : Nat :=
  Varint.encodedLength header.targetLength + 1 + Varint.encodedLength header.sections.data +
    Varint.encodedLength header.sections.instructions +
    Varint.encodedLength header.sections.addresses +
    (header.sections.checksum.map Varint.encodedLength).getD 0 + header.sections.total

def toBytes (header : WindowHeader) : List UInt8 :=
  header.indicator.toByte :: (segmentBytes header.segment ++
    (Varint.encode header.deltaLength ++ header.deltaFields))

end WindowHeader

end DeltaCoding
