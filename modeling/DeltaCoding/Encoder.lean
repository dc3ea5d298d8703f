import DeltaCoding.Match.Finder
import DeltaCoding.Checksum
import DeltaCoding.Writer.Basic

/-!
# The encoder

An encoder turns a target into a delta against a dictionary, one window for each chunk that it is
given. Starting a session writes the file header, and finishing it writes the trailer that JSON
needs. Calls hand out the bytes to append to the delta; a call that fails hands out none.

With `previousTarget`, every window after the first refers to the target of the window before it
instead of the dictionary.
-/

namespace DeltaCoding

/-- A code table for a delta to use instead of the standard one. -/
structure OwnCodeTable where
  near : Nat
  same : Nat
  table : CodeTable

/-- What a delta is to look like. -/
structure EncodeOptions where
  /-- Interleaved windows. -/
  interleaved : Bool := false
  /-- A checksum in every window. -/
  checksum : Bool := false
  /-- A JSON array instead of the binary format. -/
  json : Bool := false
  /-- Copies may start in the target of the same window. -/
  targetMatches : Bool := true
  /-- Windows after the first refer to the target of the window before. -/
  previousTarget : Bool := false
  codeTable : Option OwnCodeTable := none
deriving Inhabited

namespace EncodeOptions

def version (options : EncodeOptions) : Version :=
  if options.interleaved || options.checksum then .sdch else .standard

def writer (options : EncodeOptions) : Except EncodeError Writer :=
  if options.json then .ok (.json {})
  else
    match options.codeTable with
    | none => .ok (.delta (.standard options.interleaved))
    | some own =>
      (DeltaWriter.withTable options.interleaved own.near own.same own.table).map Writer.delta

end EncodeOptions

/-- An encoder for deltas against one dictionary. -/
structure Encoder where
  index : DictionaryIndex
  options : EncodeOptions
  /-- The writer of the session in progress. -/
  writer : Option Writer := none
  /-- Where the target of the last window starts, and that target. -/
  previous : Option (Nat × Array UInt8) := none
  /-- The number of target bytes of this session, or of the last one if none is in progress. -/
  targetBytes : Nat := 0
  /-- The number of windows of this session, or of the last one if none is in progress. -/
  windows : Nat := 0

namespace Encoder

abbrev Call := Except EncodeError (List UInt8) × Encoder

def start (e : Encoder) : Call :=
  if e.writer.isSome then (.error (.usage .startedTwice), e)
  else
    let started := do
      let writer ← e.options.writer
      let header ← writer.fileHeader e.options.version
      pure (writer, header)
    match started with
    | .error error => (.error error, e)
    | .ok (writer, header) =>
      (.ok header, { e with writer := some writer, previous := none, targetBytes := 0, windows := 0 })

/-- The source of the next window: what finds matches in it, and the call that opens the window. -/
def nextSource (e : Encoder) : DictionaryIndex × (Writer → Writer.Call Unit) :=
  match e.options.previousTarget, e.previous with
  | true, some (position, target) =>
    (.ofDictionary target, fun writer => writer.openTargetWindow position target.size)
  | _, _ => (e.index, fun writer => writer.openWindow e.index.dictionary.size)

/-- Writes one window for `target`, and hands out the window and the writer. -/
def writeWindow (writer : Writer) (options : EncodeOptions) (index : DictionaryIndex)
    (openIt : Writer → Writer.Call Unit) (target : Array UInt8) : Writer.Call (List UInt8) :=
  match openIt writer with
  | (.error error, writer) => (.error error, writer)
  | (.ok (), writer) =>
    match writer.edits (Match.findEdits index options.targetMatches target) with
    | (.error error, writer) => (.error error, writer)
    | (.ok (), writer) =>
      let writer :=
        if options.checksum then writer.setChecksum (Checksum.adler32 target.toList).toNat
        else writer
      writer.closeWindow

/-- Encodes a chunk of the target as one window. An empty chunk makes no window. A chunk that fails
does not count, and the window after it refers to the dictionary. -/
def encodeChunk (e : Encoder) (chunk : Array UInt8) : Call :=
  match e.writer with
  | none => (.error (.usage .chunkBeforeStart), e)
  | some writer =>
    -- Not even a checksum is written for an empty chunk.
    if chunk.isEmpty then (.ok [], e)
    else
      let (index, openIt) := e.nextSource
      match writeWindow writer e.options index openIt chunk with
      | (.error error, writer) => (.error error, { e with writer := some writer, previous := none })
      | (.ok bytes, writer) =>
        (.ok bytes, { e with
          writer := some writer
          previous := if e.options.previousTarget then some (e.targetBytes, chunk) else none
          targetBytes := e.targetBytes + chunk.size
          windows := e.windows + 1 })

/-- Ends the session, even if the writer is in the middle of a window. -/
def finish (e : Encoder) : Call :=
  match e.writer with
  | none => (.error (.usage .finishBeforeStart), e)
  | some writer => (writer.finish.1, { e with writer := none, previous := none })

def encodeChunks (e : Encoder) : List (Array UInt8) → Call
  | [] => (.ok [], e)
  | chunk :: rest =>
    match e.encodeChunk chunk with
    | (.error error, e) => (.error error, e)
    | (.ok bytes, e) =>
      match encodeChunks e rest with
      | (.error error, e) => (.error error, e)
      | (.ok more, e) => (.ok (bytes ++ more), e)

def encodeAll (e : Encoder) (chunks : List (Array UInt8)) : Except EncodeError (List UInt8) := do
  let (header, e) := e.start
  let header ← header
  let (windows, e) := e.encodeChunks chunks
  let windows ← windows
  let trailer ← e.finish.1
  pure (header ++ (windows ++ trailer))

end Encoder

def Encoder.ofDictionary (dictionary : Array UInt8) (options : EncodeOptions := {}) : Encoder :=
  { index := .ofDictionary dictionary, options := options }

/-- Encodes a target in one window. -/
def encodeMemory (dictionary target : Array UInt8) (options : EncodeOptions := {}) :
    Except EncodeError (List UInt8) :=
  (Encoder.ofDictionary dictionary options).encodeAll [target]

end DeltaCoding
