import DeltaCoding.CodeTable.Validity
import DeltaCoding.Decoder.Sink
import DeltaCoding.Window.Progress

/-!
# Decoding sessions

A session takes a delta from its file header to its last window. A file header that announces a code
table is followed by a whole delta of its own: its target, against the standard table's stored form,
is the stored form of the new table. That inner delta is read from the same stream; it ends with the
window that completes the table, and it cannot announce a table itself.

The sessions here consume as much of the input at hand as they can. What they leave is the start of
an item that is not complete; it has to be offered again together with what follows it.
-/

namespace DeltaCoding

/-- The windows of a delta, decoded as far as its input goes. -/
structure WindowRun where
  decoder : WindowDecoder
  /-- The target of earlier windows, as far as it may be referred to, then the window in progress.
  -/
  target : Array UInt8
  /-- The number of target bytes in completed windows. -/
  total : Nat

namespace WindowRun

def ofDecoder (decoder : WindowDecoder) : WindowRun :=
  ⟨decoder, #[], 0⟩

/-- Decodes windows until the input at hand is used up or, if `stopAt` is given, the target is that
long. Each completed window is one write to the sink. The length of all windows is a number here; as
a word of 64 bits it has a bound. -/
def run (dictionary : Array UInt8) (config : DecoderConfig) (stopAt : Option Nat) (c : Cursor)
    (sink : Sink) : WindowRun → Except DecodeError (WindowRun × Cursor) × Sink
  | ⟨decoder, target, total⟩ =>
    if stopAt = some total ∨ c.isEmpty then (.ok (⟨decoder, target, total⟩, c), sink)
    else
      let progress := decoder.decode ⟨dictionary, config, total⟩ c target
      match _h : progress.outcome with
      | .error error => (.error error, sink)
      | .ok .needMoreData => (.ok (⟨progress.decoder, progress.target, total⟩, progress.cursor), sink)
      | .ok (.complete start stop) =>
        if progress.target.size < stop ∨ stop < start then (.error .breach, sink)
        else
          match sink.write (progress.target.extract start stop) with
          | (false, sink) => (.error .sinkFull, sink)
          | (true, sink) =>
            -- Without references to earlier targets there is no need to keep them.
            run dictionary config stopAt progress.cursor sink
              ⟨progress.decoder, if config.allowTarget then progress.target else #[],
                total + (stop - start)⟩
termination_by run => run.decoder.workBound c
decreasing_by exact WindowDecoder.workBound_decode _h

end WindowRun

/-! ## The delta of a code table -/

/-- How far the delta of a code table has been decoded. -/
inductive TableStage where
  | header
  | windows (run : WindowRun)

namespace TableStage

/-- The settings for the delta of a code table: the defaults, and a target of the right size. -/
def config : DecoderConfig :=
  { plannedTargetFile := some CodeTable.storedSize }

/-- Reads a file header. Errors count from the header's start. -/
def parseHeader (c : Cursor) : Except DecodeError (Option (FileHeader × Cursor)) :=
  match FileHeader.parse c with
  | .ok (fileHeader, c) => .ok (some (fileHeader, c))
  | .error .needMoreData => .ok none
  | .error (.malformed error) =>
    .error (.locate (c.offset + FileHeader.errorPosition error) error)
  | .error .breach => .error .breach

def runWindows (run : WindowRun) (c : Cursor) : Except DecodeError (TableStage × Cursor) :=
  match (run.run CodeTable.standardBytes config (some CodeTable.storedSize) c {}).1 with
  | .ok (run, c) => .ok (.windows run, c)
  | .error error => .error error

/-- Decodes as much of the delta as is at hand, but nothing behind it. -/
def run (stage : TableStage) (c : Cursor) : Except DecodeError (TableStage × Cursor) :=
  match stage with
  | windows run => runWindows run c
  | header =>
    match parseHeader c with
    | .error error => .error error
    | .ok none => .ok (header, c)
    | .ok (some (fileHeader, behind)) =>
      if fileHeader.cacheSizes.isSome then .error (.locate c.offset (.invalidCodeTable .nested))
      else runWindows (.ofDecoder (.ofVersion fileHeader.version)) behind

def stored? : TableStage → Option (Array UInt8)
  | header => none
  | windows run => if run.total < CodeTable.storedSize then none else some run.target

end TableStage

/-! ## Whole deltas -/

/-- How far a delta has been decoded. -/
inductive SessionStage where
  | header
  | table (version : Version) (sizes : CacheSizes) (stage : TableStage)
  | windows (run : WindowRun)

/-- One delta being decoded. -/
structure Session where
  dictionary : Array UInt8
  config : DecoderConfig
  stage : SessionStage

namespace Session

def start (dictionary : Array UInt8) (config : DecoderConfig) : Session :=
  ⟨dictionary, config, .header⟩

def install (version : Version) (sizes : CacheSizes) (stored : Array UInt8) :
    Except TableFault WindowDecoder := do
  let table ← CodeTable.ofBytes stored
  table.validate sizes.maxMode
  pure ((WindowDecoder.ofVersion version).withTable table sizes)

def runWindows (session : Session) (run : WindowRun) (c : Cursor) (sink : Sink) :
    Except DecodeError (Session × Cursor) × Sink :=
  match run.run session.dictionary session.config none c sink with
  | (.ok (run, c), sink) => (.ok ({ session with stage := .windows run }, c), sink)
  | (.error error, sink) => (.error error, sink)

/-- Goes on with the code table. A table that is not valid counts as an error of the place at which
this call took it up. -/
def runTable (session : Session) (version : Version) (sizes : CacheSizes) (stage : TableStage)
    (c : Cursor) (sink : Sink) : Except DecodeError (Session × Cursor) × Sink :=
  match stage.run c with
  | .error error => (.error error, sink)
  | .ok (stage, behind) =>
    match stage.stored? with
    | none => (.ok ({ session with stage := .table version sizes stage }, behind), sink)
    | some stored =>
      match install version sizes stored with
      | .error fault => (.error (.locate c.offset (.invalidCodeTable fault)), sink)
      | .ok decoder => session.runWindows (.ofDecoder decoder) behind sink

def afterHeader (session : Session) (header : FileHeader) (headerOffset : Nat) (c : Cursor)
    (sink : Sink) : Except DecodeError (Session × Cursor) × Sink :=
  match header.cacheSizes with
  | none => session.runWindows (.ofDecoder (.ofVersion header.version)) c sink
  | some (near, same) =>
    match CacheSizes.check near.toNat same.toNat with
    | .error error => (.error (.locate headerOffset error), sink)
    | .ok sizes => session.runTable header.version sizes .header c sink

/-- Consumes as much of the input as possible and writes completed windows to the sink. -/
def run (session : Session) (c : Cursor) (sink : Sink) :
    Except DecodeError (Session × Cursor) × Sink :=
  match session with
  | ⟨dictionary, config, .windows windows⟩ =>
    runWindows ⟨dictionary, config, .header⟩ windows c sink
  | ⟨dictionary, config, .table version sizes table⟩ =>
    runTable ⟨dictionary, config, .header⟩ version sizes table c sink
  | ⟨_, _, .header⟩ =>
    match TableStage.parseHeader c with
    | .error error => (.error error, sink)
    | .ok none => (.ok (session, c), sink)
    | .ok (some (header, behind)) => session.afterHeader header c.offset behind sink

/-- The session stands where a delta may end: before it, behind its header or between windows. -/
def isComplete (session : Session) : Bool :=
  match session.stage with
  | .header => true
  | .table _ _ _ => false
  | .windows run => !run.decoder.inWindow

end Session

end DeltaCoding
