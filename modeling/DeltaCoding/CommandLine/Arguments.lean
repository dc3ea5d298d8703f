import DeltaCoding.CommandLine.ByteSize

/-!
# Command line arguments

The command line is a command with options and paths behind it. The options that go with every
command may also stand in front of it. `Invocation.parse` takes the arguments from left to right,
and the first fault decides.

The value of an option is attached to it or is the next argument. A value in the next argument is
checked when the argument behind it has been recognised; if that one is no option of the command, it
is the fault that is reported.
-/

namespace DeltaCoding.CommandLine

/-! ## Options -/

/-- The options of the program. -/
inductive Switch where
  | force
  | quiet
  | verbose
  | stats
  | help
  | version
  | dictionary
  | interleaved
  | checksum
  | targetMatches
  | vcdTarget
  | json
  | windowSize
  | maxWindowSize
  | maxFileSize
  | noVcdTarget
  | chunkSize
deriving DecidableEq

/-- What follows an option. -/
inductive SwitchValue where
  /-- Nothing; the option may be given once. -/
  | none
  /-- Nothing; the option may be given several times. -/
  | repeated
  /-- Nothing; the program answers at once. -/
  | answer
  | path
  | size
  | positiveSize
deriving DecidableEq

namespace Switch

def name : Switch → String
  | force => "force"
  | quiet => "quiet"
  | verbose => "verbose"
  | stats => "stats"
  | help => "help"
  | version => "version"
  | dictionary => "dictionary"
  | interleaved => "interleaved"
  | checksum => "checksum"
  | targetMatches => "target-matches"
  | vcdTarget => "vcd-target"
  | json => "json"
  | windowSize => "window-size"
  | maxWindowSize => "max-window-size"
  | maxFileSize => "max-file-size"
  | noVcdTarget => "no-vcd-target"
  | chunkSize => "chunk-size"

def letter? : Switch → Option Char
  | force => some 'f'
  | quiet => some 'q'
  | verbose => some 'v'
  | help => some 'h'
  | version => some 'V'
  | dictionary => some 'd'
  | _ => none

def value : Switch → SwitchValue
  | verbose => .repeated
  | help | version => .answer
  | dictionary => .path
  | windowSize | chunkSize => .positiveSize
  | maxWindowSize | maxFileSize => .size
  | _ => .none

def takesValue (s : Switch) : Bool :=
  match s.value with
  | .path | .size | .positiveSize => true
  | _ => false

/-- The option and its value in a message, as in `--chunk-size <CHUNK_SIZE>`. -/
def usage (s : Switch) : String :=
  let placeholder := s.name.map fun c => if c = '-' then '_' else c.toUpper
  "--" ++ s.name ++ " <" ++ placeholder ++ ">"

end Switch

/-! ## Commands -/

/-- The commands of the program. -/
inductive CommandName where
  | encode
  | decode
  | inspect
deriving DecidableEq

namespace CommandName

def ofArgument? (argument : String) : Option CommandName :=
  if argument = "encode" then some encode
  else if argument = "decode" then some decode
  else if argument = "inspect" then some inspect
  else none

def commonSwitches : List Switch := [.force, .quiet, .verbose, .stats, .help]

def frontSwitches : List Switch := .version :: commonSwitches

def switches : CommandName → List Switch
  | encode => commonSwitches ++
    [.dictionary, .interleaved, .checksum, .targetMatches, .vcdTarget, .json, .windowSize]
  | decode => commonSwitches ++
    [.dictionary, .maxWindowSize, .maxFileSize, .noVcdTarget, .chunkSize]
  | inspect => commonSwitches

def maxPaths : CommandName → Nat
  | encode | decode => 2
  | inspect => 1

end CommandName

/-- Why arguments do not make an invocation. -/
inductive ArgumentStop where
  /-- The value of an option is not a byte size. -/
  | invalidSize (option : Switch) (argument : String) (error : SizeError)
  /-- The arguments do not fit together in some other way. -/
  | usage
  /-- Help was asked for. -/
  | help
  /-- The version was asked for. -/
  | version
deriving DecidableEq

/-! ## Taking arguments up -/

/-- An option with its value, checked. -/
inductive Given where
  | plain (option : Switch)
  | path (option : Switch) (path : String)
  | size (option : Switch) (size : Nat)
deriving DecidableEq

namespace Given

def option : Given → Switch
  | plain option => option
  | path option _ => option
  | size option _ => option

end Given

/-- What has been taken up so far. -/
structure Scan where
  /-- The options that can be given here. -/
  switches : List Switch
  /-- The number of paths that can be given here. -/
  maxPaths : Nat
  given : List Given := []
  paths : List String := []
  /-- An option whose value is still to come, or is there but not checked. -/
  pending : Option (Switch × Option String) := none

namespace Scan

def has (s : Scan) (option : Switch) : Bool :=
  s.given.any (·.option = option)

def path? (s : Scan) (option : Switch) : Option String :=
  s.given.findSome? fun
    | .path o path => if o = option then some path else none
    | _ => none

def size? (s : Scan) (option : Switch) : Option Nat :=
  s.given.findSome? fun
    | .size o size => if o = option then some size else none
    | _ => none

def checkValue (option : Switch) (text : String) : Except ArgumentStop Given :=
  let sized (result : Except SizeError Nat) : Except ArgumentStop Given :=
    match result with
    | .ok size => .ok (.size option size)
    | .error error => .error (.invalidSize option text error)
  match option.value with
  | .path => if text.isEmpty then .error .usage else .ok (.path option text)
  | .size => sized (ByteSize.parse text)
  | .positiveSize => sized (ByteSize.parsePositive text)
  | _ => .error .usage

/-- Takes up an option. Most may be given once only. -/
def give (s : Scan) (option : Switch) (checked : Except ArgumentStop Given) :
    Except ArgumentStop Scan :=
  if s.has option && option.value != .repeated then .error .usage
  else checked.map fun given => { s with given := given :: s.given }

def settle (s : Scan) : Except ArgumentStop Scan :=
  match s.pending with
  | none => .ok s
  | some (_, none) => .error .usage
  | some (option, some text) => { s with pending := none }.give option (checkValue option text)

def giveFlag (s : Scan) (option : Switch) : Except ArgumentStop Scan := do
  let s ← s.settle
  match option.value, option with
  | .answer, .version => .error .version
  | .answer, _ => .error .help
  | _, _ => s.give option (.ok (.plain option))

def giveValued (s : Scan) (option : Switch) (attached : Option String) :
    Except ArgumentStop Scan := do
  let s ← s.settle
  match attached with
  | some text => s.give option (checkValue option text)
  | none => pure { s with pending := some (option, none) }

def takeLong (s : Scan) (name : String) (attached : Option String) : Except ArgumentStop Scan :=
  match s.switches.find? (·.name = name) with
  | none => .error .usage
  | some option =>
    if option.takesValue then s.giveValued option attached
    else if attached.isSome then .error .usage
    else s.giveFlag option

/-- Takes up options by their letters. The first that takes a value ends the row: what follows it,
without an equals sign in front, is its value. -/
def takeLetters (s : Scan) : List Char → Except ArgumentStop Scan
  | [] => .ok s
  | c :: rest =>
    match s.switches.find? (·.letter? = some c) with
    | none => .error .usage
    | some option =>
      if option.takesValue then
        -- The rest of the row is the value, even if its letters are options too.
        s.giveValued option <|
          match rest with
          | [] => none
          | '=' :: text => some (String.ofList text)
          | text => some (String.ofList text)
      else do takeLetters (← s.giveFlag option) rest

def takePath (s : Scan) (argument : String) : Except ArgumentStop Scan :=
  if s.paths.length < s.maxPaths then do
    let s ← s.settle
    if argument.isEmpty then .error .usage
    else pure { s with paths := s.paths ++ [argument] }
  else .error .usage

/-- Takes up an argument that is no option: the value that is waited for, or a path. -/
def takePlain (s : Scan) (argument : String) : Except ArgumentStop Scan :=
  match s.pending with
  | some (option, none) => .ok { s with pending := some (option, some argument) }
  | _ => s.takePath argument

def splitEquals (text : List Char) : String × Option String :=
  let name := text.takeWhile (· ≠ '=')
  match text.dropWhile (· ≠ '=') with
  | [] => (String.ofList name, none)
  | _ :: value => (String.ofList name, some (String.ofList value))

def take (s : Scan) (argument : String) : Except ArgumentStop Scan :=
  match argument.toList with
  | '-' :: '-' :: text =>
    let (name, attached) := splitEquals text
    s.takeLong name attached
  | '-' :: c :: letters => s.takeLetters (c :: letters)
  | _ => s.takePlain argument

/-- Takes up all arguments behind a command. Behind `--` every argument is a path. -/
def takeAll (s : Scan) : List String → Except ArgumentStop Scan
  | [] => s.settle
  | argument :: rest =>
    if argument = "--" then do (← rest.foldlM takePath s).settle
    else do takeAll (← s.take argument) rest

def checkConflicts (s : Scan) : Except ArgumentStop Unit :=
  if s.has .quiet && s.has .verbose then .error .usage
  else if s.has .json && (s.has .interleaved || s.has .checksum) then .error .usage
  else .ok ()

end Scan

/-! ## Invocations -/

/-- What to encode, and how. -/
structure EncodeArguments where
  dictionary : Option String
  interleaved : Bool
  checksum : Bool
  targetMatches : Bool
  previousTarget : Bool
  json : Bool
  windowSize : Nat
  input : Option String
  output : Option String
deriving DecidableEq

/-- What to decode, and how. -/
structure DecodeArguments where
  dictionary : Option String
  maxWindowSize : Nat
  maxFileSize : Nat
  allowTarget : Bool
  chunkSize : Nat
  input : Option String
  output : Option String
deriving DecidableEq

/-- A command with its arguments. -/
inductive Command where
  | encode (arguments : EncodeArguments)
  | decode (arguments : DecodeArguments)
  | inspect (delta : String)
deriving DecidableEq

/-- What the program is asked to do. -/
structure Invocation where
  force : Bool
  quiet : Bool
  verbose : Bool
  stats : Bool
  command : Command
deriving DecidableEq

namespace Invocation

def standardWindowSize : Nat := 1024 * 1024

/-- The size of the pieces that a delta is decoded in, unless another is given. -/
def standardChunkSize : Nat := 64 * 1024

/-- The largest window and file that are decoded, unless others are given. -/
def standardLimit : Nat := 64 * 1024 * 1024

def commandOf (s : Scan) : CommandName → Except ArgumentStop Command
  | .encode => .ok <| .encode
    { dictionary := s.path? .dictionary
      interleaved := s.has .interleaved
      checksum := s.has .checksum
      targetMatches := s.has .targetMatches
      previousTarget := s.has .vcdTarget
      json := s.has .json
      windowSize := (s.size? .windowSize).getD standardWindowSize
      input := s.paths[0]?
      output := s.paths[1]? }
  | .decode => .ok <| .decode
    { dictionary := s.path? .dictionary
      maxWindowSize := (s.size? .maxWindowSize).getD standardLimit
      maxFileSize := (s.size? .maxFileSize).getD standardLimit
      allowTarget := !s.has .noVcdTarget
      chunkSize := (s.size? .chunkSize).getD standardChunkSize
      input := s.paths[0]?
      output := s.paths[1]? }
  | .inspect =>
    match s.paths with
    | path :: _ => .ok (.inspect path)
    | [] => .error .usage

/-- Takes up a command and what is behind it. `front` is what was in front of it. -/
def parseCommand (front : Scan) (name : CommandName) (arguments : List String) :
    Except ArgumentStop Invocation := do
  let s ← Scan.takeAll { switches := name.switches, maxPaths := name.maxPaths } arguments
  -- Options in front of the command and behind it are checked apart and taken together after.
  s.checkConflicts
  let command ← commandOf s name
  front.checkConflicts
  let has (option : Switch) : Bool := front.has option || s.has option
  pure {
    force := has .force
    quiet := has .quiet
    verbose := has .verbose
    stats := has .stats
    command := command }

def parseHelp : List String → ArgumentStop
  | [] => .help
  | [argument] =>
    if argument = "help" || (CommandName.ofArgument? argument).isSome then .help else .usage
  | _ => .usage

def parseFront (front : Scan) : List String → Except ArgumentStop Invocation
  | [] => .error .usage
  | argument :: rest =>
    match CommandName.ofArgument? argument with
    | some name => parseCommand front name rest
    | none =>
      if argument = "help" then .error (parseHelp rest)
      else if argument = "--" then .error .usage
      else do parseFront (← front.take argument) rest

def parse (arguments : List String) : Except ArgumentStop Invocation :=
  parseFront { switches := CommandName.frontSwitches, maxPaths := 0 } arguments

end Invocation

end DeltaCoding.CommandLine
