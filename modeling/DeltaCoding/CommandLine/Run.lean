import DeltaCoding.CommandLine.Arguments
import DeltaCoding.CommandLine.Files
import DeltaCoding.Encoder
import DeltaCoding.Inspect
import DeltaCoding.Text.ControlSequence

/-!
# Carrying out commands

`run` takes a command line and what is known of the files, and says everything that the program
does: what it writes to the standard output, to the standard error and to the output file, and its
exit status. Output that has been written before a fault stays written.
-/

namespace DeltaCoding.CommandLine

/-- What the program does. -/
structure Report where
  exit : Nat
  standardOutput : List UInt8 := []
  /-- The lines on the standard error. -/
  standardError : List String := []
  /-- The file that is created, and its content. -/
  file : Option (String × List UInt8) := none
deriving Inhabited

/-! ## Exit statuses and messages -/

/-- Why a command stops. -/
inductive Fault where
  | message (text : String)
  /-- A precondition does not hold; the program breaks off. -/
  | breach
deriving DecidableEq

namespace Fault

def exit : Fault → Nat
  | message _ => 1
  | breach => 101

def lines : Fault → List String
  | message text => [s!"vcdelta: {text}"]
  | breach => ["vcdelta: precondition violated"]

def ofDecode : DecodeError → Fault
  | .breach => breach
  | error => message s!"decode error: {error.message}"

def ofEncode (error : EncodeError) : Fault :=
  message s!"encode error: {error.message}"

def ofInspect : InspectError → Fault
  | .breach => breach
  | .tableDelta .breach => breach
  | error => message error.message

end Fault

/-! ## Statistics -/

/-- A value of the statistics. -/
inductive Statistic where
  | number (n : Nat)
  | word (text : String)

namespace Statistic

def text : Statistic → String
  | number n => toString n
  | word text => "\"" ++ text ++ "\""

/-- The lines of a JSON object, its members in the given order, which is alphabetical. -/
def lines (members : List (String × Statistic)) : List String :=
  let last := members.length - 1
  let member (i : Nat) (m : String × Statistic) : String :=
    "  \"" ++ m.1 ++ "\": " ++ m.2.text ++ (if i < last then "," else "")
  "\x7b" :: members.mapIdx member ++ ["\x7d"]

end Statistic

/-! ## Files -/

/-- The content of a dictionary file; without one the dictionary is empty. -/
def readDictionary (files : Files) : Option String → Except Fault (Array UInt8)
  | none => .ok #[]
  | some path =>
    (files.read path).mapError fun error =>
      .message s!"dictionary file: {path}: {error.message}"

def openInput (files : Files) : Option String → Except Fault Unit
  | none => .ok ()
  | some path =>
    (files.open? path).mapError fun error => .message s!"input file: {path}: {error.message}"

/-- Sees to it that the output can be created. An existing file is replaced only if forced. -/
def openOutput (files : Files) (force : Bool) : Option String → Except Fault Unit
  | none => .ok ()
  | some path =>
    if files.isThere path && !force then
      .error (.message s!"output file exists, use -f to overwrite: {path}")
    else
      (files.create path).mapError fun error => .message s!"output file: {path}: {error.message}"

/-- The input, once the output has been created. Creating the output empties an input that is the
same file. -/
def readInput (files : Files) (input output : Option String) : Except Fault (Array UInt8) :=
  match input with
  | none => .ok files.standardInput
  | some path =>
    if output.any (files.same path) then .ok #[]
    else (files.read path).mapError fun error => .message s!"read error: {error.message}"

/-- Cuts bytes into pieces of the given size, the last of which may be shorter. -/
def pieces (size : Nat) (bytes : Array UInt8) (start : Nat := 0) : List (Array UInt8) :=
  if start < bytes.size then
    bytes.extract start (start + max size 1) :: pieces size bytes (start + max size 1)
  else []
termination_by bytes.size - start
decreasing_by omega

def fileBlock : Nat := 64 * 1024

def standardInputBlock : Nat := 8 * 1024

/-- The pieces that input comes in when it is asked for by `size` bytes. Input is read in blocks; a
piece ends with its block, unless pieces are as large as blocks. -/
def inputPieces (block size : Nat) (bytes : Array UInt8) : List (Array UInt8) :=
  if size ≥ block then pieces size bytes
  else (pieces block bytes).flatMap (pieces size ·)

/-- What a command has written and said when it ends. -/
structure Outcome where
  /-- The command stopped with a fault. -/
  fault : Option Fault := none
  written : List UInt8 := []
  /-- What is said on the standard error if there is no fault. -/
  lines : List String := []

/-- What the program does, given the outcome of a command with this output. -/
def Outcome.report (outcome : Outcome) (output : Option String) : Report :=
  let exit := (outcome.fault.map Fault.exit).getD 0
  let lines := (outcome.fault.map Fault.lines).getD outcome.lines
  match output with
  | none => { exit := exit, standardOutput := outcome.written, standardError := lines }
  | some path => { exit := exit, standardError := lines, file := some (path, outcome.written) }

/-- What the program does if a command stops before it has an output. -/
def Fault.report (fault : Fault) : Report :=
  { exit := fault.exit, standardError := fault.lines }

/-- What a command says at its end: a line if it is to be verbose, and statistics if asked for. -/
def closingLines (invocation : Invocation) (line : String) (members : List (String × Statistic)) :
    List String :=
  (if invocation.verbose && !invocation.quiet then [line] else []) ++
    (if invocation.stats then Statistic.lines members else [])

/-! ## Encoding -/

def EncodeArguments.options (arguments : EncodeArguments) : EncodeOptions :=
  { interleaved := arguments.interleaved
    checksum := arguments.checksum
    json := arguments.json
    targetMatches := arguments.targetMatches
    previousTarget := arguments.previousTarget
    codeTable := none }

def versionWord : Version → String
  | .standard => "standard"
  | .sdch => "sdch"

/-- The result of an encoding session: an error and what was written before it, or everything. -/
structure Encoded where
  error : Option EncodeError
  written : List UInt8
  encoder : Encoder

/-- Encodes pieces as windows. `held` is written together with the next window. -/
def encodePieces (e : Encoder) (written : Array UInt8) (held : List UInt8) :
    List (Array UInt8) → Encoded
  | [] =>
    match e.finish with
    | (.error error, e) => ⟨some error, written.toList, e⟩
    | (.ok trailer, e) => ⟨none, (written ++ held ++ trailer).toList, e⟩
  | piece :: rest =>
    match e.encodeChunk piece with
    | (.error error, e) => ⟨some error, written.toList, e⟩
    | (.ok window, e) => encodePieces e (written ++ held ++ window) [] rest

def encodeSession (e : Encoder) (chunks : List (Array UInt8)) : Encoded :=
  match e.start with
  | (.error error, e) => ⟨some error, [], e⟩
  | (.ok header, e) => encodePieces e #[] header chunks

def encodeOutcome (invocation : Invocation) (arguments : EncodeArguments)
    (dictionary input : Array UInt8) : Outcome :=
  let encoded := encodeSession (.ofDictionary dictionary arguments.options)
    (pieces (min arguments.windowSize (1024 * 1024 * 1024)) input)
  match encoded.error with
  | some error => { fault := some (.ofEncode error), written := encoded.written }
  | none =>
    let e := encoded.encoder
    let size := encoded.written.length
    { written := encoded.written
      lines := closingLines invocation
        (s!"vcdelta: encoder: dictionary size: {dictionary.size}, " ++
          s!"input size: {e.targetBytes}, output size: {size}, windows: {e.windows}")
        [("command", .word "encode"), ("dictionary_size", .number dictionary.size),
          ("input_size", .number e.targetBytes), ("output_size", .number size),
          ("version", .word (versionWord e.options.version)), ("windows", .number e.windows)] }

/-! ## Decoding -/

def DecodeArguments.config (arguments : DecodeArguments) : DecoderConfig :=
  { maxTargetWindow := arguments.maxWindowSize
    maxTargetFile := arguments.maxFileSize
    allowTarget := arguments.allowTarget
    plannedTargetFile := none }

/-- A whole session. Hands out what was decoded, and an error if there is one. -/
def decodeSession (config : DecoderConfig) (dictionary : Array UInt8)
    (chunks : List (Array UInt8)) : Option DecodeError × Sink :=
  match decodeStream dictionary config {} (chunks.map Array.toList) with
  | (.error error, sink) => (some error, sink)
  | (.ok (), sink) => (none, sink)

def decodeOutcome (invocation : Invocation) (arguments : DecodeArguments)
    (dictionary input : Array UInt8) : Outcome :=
  let block := if arguments.input.isSome then fileBlock else standardInputBlock
  let chunks := inputPieces block (min arguments.chunkSize (1024 * 1024 * 1024)) input
  let (error, sink) := decodeSession arguments.config dictionary chunks
  let written := sink.written.toList
  match error with
  | some error => { fault := some (.ofDecode error), written := written }
  | none =>
    { written := written
      lines := closingLines invocation
        (s!"vcdelta: decoder: dictionary size: {dictionary.size}, " ++
          s!"input size: {input.size}, output size: {sink.written.size}")
        [("command", .word "decode"), ("dictionary_size", .number dictionary.size),
          ("input_size", .number input.size), ("output_size", .number sink.written.size)] }

/-! ## Whole commands -/

def transform (files : Files) (force : Bool) (dictionary input output : Option String)
    (outcome : Array UInt8 → Array UInt8 → Outcome) : Report :=
  let opened := do
    let content ← readDictionary files dictionary
    openInput files input
    openOutput files force output
    pure content
  match opened with
  | .error fault => fault.report
  | .ok content =>
    match readInput files input output with
    | .error fault => ({ fault := some fault } : Outcome).report output
    | .ok bytes => (outcome content bytes).report output

def inspect (invocation : Invocation) (files : Files) (path : String) : Report :=
  let described := do
    let delta ← (files.read path).mapError fun (error : FileError) =>
      Fault.message s!"delta file: {path}: {error.message}"
    let summary ← (DeltaSummary.ofDelta delta.toList).mapError Fault.ofInspect
    pure (delta, summary)
  match described with
  | .error fault => fault.report
  | .ok (delta, summary) =>
    let text := String.join (summary.lines.map (· ++ "\n"))
    { exit := 0
      standardOutput := text.toUTF8.toList
      standardError :=
        if invocation.stats then
          Statistic.lines [("command", .word "inspect"), ("delta_size", .number delta.size),
            ("target_size", .number summary.targetLength),
            ("windows", .number summary.windows.length)]
        else [] }

def carryOut (invocation : Invocation) (files : Files) : Report :=
  match invocation.command with
  | .encode a =>
    transform files invocation.force a.dictionary a.input a.output
      fun dictionary input => encodeOutcome invocation a dictionary input
  | .decode a =>
    transform files invocation.force a.dictionary a.input a.output
      fun dictionary input => decodeOutcome invocation a dictionary input
  | .inspect path => inspect invocation files path

/-! ## The program -/

def versionText : String := "vcdelta 0.1.0"

def helpLines : List String :=
  [ "VCDIFF delta encoder/decoder",
    "",
    "Usage: vcdelta [OPTIONS] <COMMAND>",
    "",
    "Commands:",
    "  encode   Encode an input as a delta against a dictionary",
    "  decode   Rebuild the input from a dictionary and a delta",
    "  inspect  Print the header and a summary of every window of a delta",
    "  help     Print this message",
    "",
    "Options:",
    "  -f, --force    Force overwrite existing output files",
    "  -q, --quiet    Quiet mode (errors only)",
    "  -v, --verbose  Verbose mode",
    "      --stats    Print stats as JSON to stderr",
    "  -h, --help     Print help",
    "  -V, --version  Print version" ]

def setOff (style text : String) : String :=
  "\x1b[" ++ style ++ "m" ++ text ++ "\x1b[0m"

/-- The message, as for a terminal, that the value of an option is not a byte size. -/
def invalidSizeMessage (option : Switch) (argument : String) (error : SizeError) : String :=
  setOff "1;31" "error:" ++ " invalid value '" ++ setOff "33" argument ++ "' for '" ++
    setOff "1" option.usage ++ "': " ++ error.message ++
    "\n\nFor more information, try '" ++ setOff "1" "--help" ++ "'."

/-- What the program does if the arguments make no invocation. A message goes out without control
sequences, as to anything that is no terminal; those of a quoted argument go too. -/
def ArgumentStop.report : ArgumentStop → Report
  | .invalidSize option argument error =>
    { exit := 2
      standardError :=
        (Text.ControlSequence.strip (invalidSizeMessage option argument error)).splitOn "\n" }
  | .usage =>
    { exit := 2
      standardError := ["error: the arguments do not fit together", "",
        "For more information, try '--help'."] }
  | .help => { exit := 0, standardOutput := (String.join (helpLines.map (· ++ "\n"))).toUTF8.toList }
  | .version => { exit := 0, standardOutput := (versionText ++ "\n").toUTF8.toList }

/-- What the program does with these arguments, its own name not among them. -/
def run (arguments : List String) (files : Files) : Report :=
  match Invocation.parse arguments with
  | .error stop => stop.report
  | .ok invocation => carryOut invocation files

end DeltaCoding.CommandLine
