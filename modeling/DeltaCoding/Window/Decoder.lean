import DeltaCoding.CodeTable.Standard
import DeltaCoding.Checksum
import DeltaCoding.Decoder.Config
import DeltaCoding.Header.Progress
import DeltaCoding.Window.Body

/-!
# Decoding windows

`WindowDecoder.decode` takes a window's header as a whole: until every field is there, and for a
standard body all its sections too, nothing is consumed and the next call starts over. An
interleaved body may arrive in pieces; what is left of it, the instruction reader and the address
cache then keep the place. Reader and cache start afresh with every window.

A window is complete when its instructions have produced the declared number of target bytes. Then
nothing may be left in its sections, and the checksum has to agree if there is one.
-/

namespace DeltaCoding

/-- How a body is laid out, and what is known to be left of it. -/
inductive BodyLayout where
  /-- Three sections, all of them at hand. -/
  | standard (sections : SectionLengths)
  /-- One stream, of which `remaining` bytes have not been consumed. -/
  | interleaved (remaining : Nat)
deriving DecidableEq

/-- A window whose header has been read. -/
structure WindowBody where
  segment : SourceSegment
  targetLength : Nat
  /-- Where the window's target starts in the target buffer. -/
  windowStart : Nat
  checksum : Option Nat
  layout : BodyLayout
deriving DecidableEq

/-- Which part of a window comes next. -/
inductive WindowPhase where
  | header
  | body (body : WindowBody)
deriving DecidableEq

/-- Decodes one window after another. -/
structure WindowDecoder where
  phase : WindowPhase
  reader : InstructionReader
  cache : AddressCache
  version : Version

/-- What a call of the decoder achieves. -/
inductive WindowStatus where
  /-- The window's target is the part of the target buffer from `start` to before `stop`. -/
  | complete (start stop : Nat)
  | needMoreData
deriving DecidableEq

/-- What a window is decoded against. -/
structure WindowContext where
  dictionary : Array UInt8
  config : DecoderConfig
  /-- The number of target bytes that earlier windows have produced. -/
  decoded : Nat

def WindowContext.headerContext (context : WindowContext) (version : Version) :
    WindowHeader.Context where
  version := version
  dictionarySize := context.dictionary.size
  decoded := context.decoded
  allowTarget := context.config.allowTarget

def WindowContext.bodyContext (context : WindowContext) (body : WindowBody)
    (moreAvailable : Bool) : BodyContext where
  space := ⟨context.dictionary, body.segment, body.windowStart⟩
  targetLength := body.targetLength
  moreAvailable := moreAvailable

/-- The decoder, the cursor and the target buffer after a call, and what it came to. -/
structure WindowProgress where
  outcome : Except DecodeError WindowStatus
  decoder : WindowDecoder
  cursor : Cursor
  target : Array UInt8

namespace WindowBody

def checkUsedUp (part : Section) (count : Nat) : Except FormatError Unit :=
  if count > 0 then .error (.excessData part count) else .ok ()

def checkSections (layout : BodyLayout) (sections : Sections) : Except FormatError Unit :=
  match layout with
  | .standard _ => do
    checkUsedUp .instructions sections.instructions.remaining
    checkUsedUp .data sections.data.remaining
    checkUsedUp .addresses sections.addresses.remaining
  | .interleaved remaining => checkUsedUp .interleaved remaining

def checkChecksum (body : WindowBody) (target : Array UInt8) : Except FormatError Unit :=
  match body.checksum with
  | none => .ok ()
  | some expected =>
    let output := target.extract body.windowStart target.size
    let actual := (Checksum.adler32 output.toList).toNat
    if actual = expected then .ok () else .error (.checksumMismatch expected actual)

def checkComplete (body : WindowBody) (sections : Sections) (target : Array UInt8) :
    Except FormatError Unit := do
  checkSections body.layout sections
  body.checkChecksum target

end WindowBody

namespace WindowDecoder

/-- The decoder at the start of a delta with the standard code table. -/
def ofVersion (version : Version) : WindowDecoder where
  phase := .header
  reader := .ofTable .standard
  cache := .empty .standard
  version := version

def withTable (decoder : WindowDecoder) (table : CodeTable) (sizes : CacheSizes) : WindowDecoder :=
  { decoder with reader := .ofTable table, cache := .empty sizes }

def inWindow (decoder : WindowDecoder) : Bool :=
  match decoder.phase with
  | .header => false
  | .body _ => true

/-- An interleaved body is in progress and bytes of it are still to come. -/
def moreDataExpected (decoder : WindowDecoder) : Bool :=
  match decoder.phase with
  | .body { layout := .interleaved remaining, .. } => remaining > 0
  | _ => false

/-- Enters the body behind a header. The window's target starts at `windowStart`. -/
def enter (decoder : WindowDecoder) (header : WindowHeader) (windowStart : Nat) :
    WindowBody × WindowDecoder :=
  let body : WindowBody :=
    { segment := header.segment
      targetLength := header.targetLength
      windowStart := windowStart
      checksum := header.sections.checksum
      layout :=
        if header.isInterleaved decoder.version then .interleaved header.sections.instructions
        else .standard header.sections }
  (body, { decoder with
    phase := .body body
    reader := decoder.reader.reset
    cache := decoder.cache.reset })

/-- The decoder with the reader and the cache that a body in progress leaves behind. -/
def afterBody (decoder : WindowDecoder) (body : WindowBody) (s : BodyState) : WindowDecoder :=
  { decoder with phase := .body body, reader := s.reader, cache := s.cache }

/-- What the end of a body comes to, given the cursor behind what it has consumed. -/
def conclude (decoder : WindowDecoder) (body : WindowBody) (s : BodyState) (ending : BodyEnd)
    (c : Cursor) : WindowProgress :=
  let decoder := decoder.afterBody body s
  match ending with
  | .needMoreData => ⟨.ok .needMoreData, decoder, c, s.target⟩
  | .malformed offset error => ⟨.error (.locate offset error), decoder, c, s.target⟩
  | .breach => ⟨.error .breach, decoder, c, s.target⟩
  | .complete =>
    match body.checkComplete s.sections s.target with
    | .error error => ⟨.error (.locate c.offset error), decoder, c, s.target⟩
    | .ok () =>
      ⟨.ok (.complete body.windowStart s.target.size), { decoder with phase := .header }, c,
        s.target⟩

def splitSections? (lengths : SectionLengths) (c : Cursor) : Option (Sections × Cursor) := do
  let (data, c) ← c.split? lengths.data
  let (instructions, c) ← c.split? lengths.instructions
  let (addresses, c) ← c.split? lengths.addresses
  pure (.separate data instructions addresses, c)

/-- The state in which the instructions of a body are begun or gone on with. -/
def bodyState (decoder : WindowDecoder) (sections : Sections) (target : Array UInt8) : BodyState :=
  ⟨decoder.reader, decoder.cache, sections, target⟩

/-- Carries out a standard body. Sections that are not at hand are a breach: a decoder that has not
failed enters a standard body only when they are. -/
def resumeStandard (decoder : WindowDecoder) (context : WindowContext) (body : WindowBody)
    (lengths : SectionLengths) (c : Cursor) (target : Array UInt8) : WindowProgress :=
  match splitSections? lengths c with
  | none => ⟨.error .breach, decoder, c, target⟩
  | some (sections, behind) =>
    let (s, ending) := (decoder.bodyState sections target).run (context.bodyContext body false)
    -- The sections are consumed as a whole, whatever came of them.
    decoder.conclude body s ending behind

/-- Goes on with an interleaved body of which `remaining` bytes are left. -/
def resumeInterleaved (decoder : WindowDecoder) (context : WindowContext) (body : WindowBody)
    (remaining : Nat) (c : Cursor) (target : Array UInt8) : WindowProgress :=
  let (s, ending) := (decoder.bodyState (.interleaved (c.window remaining)) target).run
    (context.bodyContext body (!c.has remaining))
  -- What was carried out is consumed for good; an instruction put back is not.
  let consumed := s.sections.instructions.offset - c.offset
  if consumed ≤ remaining ∧ c.has consumed then
    decoder.conclude { body with layout := .interleaved (remaining - consumed) } s ending
      (c.skip consumed)
  else ⟨.error .breach, decoder, c, s.target⟩

def resume (decoder : WindowDecoder) (context : WindowContext) (body : WindowBody) (c : Cursor)
    (target : Array UInt8) : WindowProgress :=
  match body.layout with
  | .standard lengths => decoder.resumeStandard context body lengths c target
  | .interleaved remaining => decoder.resumeInterleaved context body remaining c target

/-- Reads a window's header against what earlier windows have produced. -/
def readHeader (decoder : WindowDecoder) (context : WindowContext) (c : Cursor) :
    Except ParseStop WindowHeader × HeaderState :=
  WindowHeader.parse (context.headerContext decoder.version)
    (context.config.checkLength context.decoded) (.ofCursor c)

def decode (decoder : WindowDecoder) (context : WindowContext) (c : Cursor)
    (target : Array UInt8) : WindowProgress :=
  match decoder.phase with
  | .body body => decoder.resume context body c target
  | .header =>
    match decoder.readHeader context c with
    | (.error .needMoreData, _) => ⟨.ok .needMoreData, decoder, c, target⟩
    | (.error .breach, _) => ⟨.error .breach, decoder, c, target⟩
    | (.error (.malformed error), s) =>
      ⟨.error (.locate s.cursor.offset error), decoder, c, target⟩
    | (.ok header, s) =>
      -- An interleaved body may come in pieces, a standard one has to be there as a whole.
      if header.isInterleaved decoder.version || s.cursor.has header.sections.total then
        let (body, decoder) := decoder.enter header target.size
        decoder.resume context body s.cursor target
      else ⟨.ok .needMoreData, decoder, c, target⟩

end WindowDecoder

end DeltaCoding
