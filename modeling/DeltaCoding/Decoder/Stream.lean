import DeltaCoding.Decoder.Session

/-!
# The streaming decoder

A decoder is started with a dictionary, fed the delta in pieces of any size, and finished. What a
piece leaves unread is kept for the next one. Every window that a piece completes is written to the
sink at once. An error ends the session, and so does finishing it, whether or not the delta was
complete.

The settings belong to the decoder and cannot be changed while a session is active.
-/

namespace DeltaCoding

/-- A decoder that is fed piece by piece. -/
structure StreamDecoder where
  config : DecoderConfig := {}
  /-- The session in progress. -/
  session : Option Session := none
  /-- The bytes that have arrived and not been consumed. -/
  pending : List UInt8 := []
  /-- The stream offset of the first pending byte. -/
  offset : Nat := 0
deriving Inhabited

namespace StreamDecoder

def isDecoding (d : StreamDecoder) : Bool :=
  d.session.isSome

def idle (config : DecoderConfig) : StreamDecoder :=
  { config := config }

/-- Changes the settings, which a session in progress does not allow. -/
def configure (d : StreamDecoder) (change : DecoderConfig → DecoderConfig) :
    Except DecodeError Unit × StreamDecoder :=
  if d.isDecoding then (.error (.usage .settingsWhileDecoding), d)
  else (.ok (), { d with config := change d.config })

def start (d : StreamDecoder) (dictionary : Array UInt8) :
    Except DecodeError Unit × StreamDecoder :=
  if d.isDecoding then (.error (.usage .startedTwice), d)
  else
    (.ok (), { d with session := some (.start dictionary d.config), pending := [], offset := 0 })

def decodeChunk (d : StreamDecoder) (piece : List UInt8) (sink : Sink) :
    Except DecodeError Unit × StreamDecoder × Sink :=
  match d with
  | ⟨config, none, pending, offset⟩ =>
    (.error (.usage .chunkBeforeStart), ⟨config, none, pending, offset⟩, sink)
  | ⟨config, some session, pending, offset⟩ =>
    match session.run ⟨offset, pending ++ piece⟩ sink with
    | (.ok (session, c), sink) => (.ok (), ⟨config, some session, c.rest, c.offset⟩, sink)
    -- The windows completed before the error have been written all the same.
    | (.error error, sink) => (.error error, idle config, sink)

/-- Ends the session. It is an error if the delta ends inside an item. -/
def finish (d : StreamDecoder) : Except DecodeError Unit × StreamDecoder :=
  match d.session with
  | none => (.error (.usage .finishBeforeStart), d)
  | some session =>
    if d.pending.isEmpty && session.isComplete then (.ok (), idle d.config)
    else (.error (.locate (d.offset + d.pending.length) .truncated), idle d.config)

def feed (d : StreamDecoder) (sink : Sink) :
    List (List UInt8) → Except DecodeError StreamDecoder × Sink
  | [] => (.ok d, sink)
  | piece :: rest =>
    match d.decodeChunk piece sink with
    | (.error error, _, sink) => (.error error, sink)
    | (.ok (), d, sink) => feed d sink rest

/-- Takes the pieces of a delta and ends the session. The first error ends it too. -/
def decodePieces (d : StreamDecoder) (sink : Sink) (pieces : List (List UInt8)) :
    Except DecodeError Unit × Sink :=
  match d.feed sink pieces with
  | (.error error, sink) => (.error error, sink)
  | (.ok d, sink) => (d.finish.1, sink)

end StreamDecoder

/-- Decodes a delta that comes in pieces. -/
def decodeStream (dictionary : Array UInt8) (config : DecoderConfig) (sink : Sink)
    (pieces : List (List UInt8)) : Except DecodeError Unit × Sink :=
  ((StreamDecoder.idle config).start dictionary).2.decodePieces sink pieces

/-- Decodes a whole delta. -/
def decodeMemory (dictionary : Array UInt8) (delta : List UInt8) (config : DecoderConfig := {}) :
    Except DecodeError (Array UInt8) := do
  let (started, decoder) := (StreamDecoder.idle config).start dictionary
  started
  let (fed, decoder, sink) := decoder.decodeChunk delta {}
  fed
  decoder.finish.1
  pure sink.written

end DeltaCoding
