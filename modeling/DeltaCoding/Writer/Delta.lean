import DeltaCoding.AddressCache
import DeltaCoding.CodeTable.OpcodeIndex
import DeltaCoding.CodeTable.Standard
import DeltaCoding.CodeTable.Validity
import DeltaCoding.Edit
import DeltaCoding.Header.Window

/-!
# Writing windows

A writer is handed the edits of a window one by one, in the order of the target, and puts the window
together: an opcode for each edit, its literal bytes or its address, and in the end the header. An
edit is written into the opcode of the edit before it where the code table has an opcode for the
two.

In the interleaved layout all parts of an edit go into the instruction section. A call that is
refused may leave its mark: a copy that does not fit has been recorded in the address cache, and an
edit that takes the target over its length limit has been written.
-/

namespace DeltaCoding

/-- The largest value of a length or address field. -/
def maxField : Nat := 0x7FFFFFFF

/-- What a writer may be asked to do next. -/
inductive WriterState where
  /-- Between windows. -/
  | idle
  /-- In a window. -/
  | writing
  | finished
deriving DecidableEq

/-- Puts windows together. -/
structure DeltaWriter where
  interleaved : Bool
  table : CodeTable
  /-- The table is not the standard one and has to be written into the file header. -/
  ownTable : Bool
  index : OpcodeIndex
  cache : AddressCache
  state : WriterState
  segment : SourceSegment
  /-- The number of target bytes that the window produces so far. -/
  targetLength : Nat
  data : Array UInt8
  instructions : Array UInt8
  addresses : Array UInt8
  /-- The place of the last opcode in the instruction section, as long as that opcode stands for one
  edit and may still be made to stand for two. -/
  lastOpcode : Option Nat
  checksum : Option Nat

namespace DeltaWriter

def make (interleaved ownTable : Bool) (table : CodeTable) (sizes : CacheSizes) : DeltaWriter where
  interleaved := interleaved
  table := table
  ownTable := ownTable
  index := .ofTable table sizes.maxMode
  cache := .empty sizes
  state := .idle
  segment := .none
  targetLength := 0
  data := #[]
  instructions := #[]
  addresses := #[]
  lastOpcode := none
  checksum := none

/-- A writer that uses the standard code table. -/
def standard (interleaved : Bool) : DeltaWriter :=
  make interleaved false .standard .standard

/-- A writer that uses a code table of its own, which must be valid for the cache sizes. -/
def withTable (interleaved : Bool) (near same : Nat) (table : CodeTable) :
    Except EncodeError DeltaWriter :=
  match CacheSizes.check near same with
  | .error error => .error (.codeTable error)
  | .ok sizes =>
    match table.validate sizes.maxMode with
    | .error fault => .error (.codeTable (.invalidCodeTable fault))
    | .ok () => .ok (make interleaved true table sizes)

abbrev Call := Except EncodeError Unit × DeltaWriter

/-! ## Opening a window -/

def openSegment (w : DeltaWriter) (segment : SourceSegment) : Call :=
  match w.state with
  | .writing => (.error (.usage .windowAlreadyOpen), w)
  | .finished => (.error (.usage .writerFinished), w)
  | .idle =>
    if segment.length > maxField then
      (.error (.tooLarge .sourceSegmentLength segment.length), w)
    else
      (.ok (), { w with
        state := .writing
        segment := segment
        targetLength := 0
        data := #[]
        instructions := #[]
        addresses := #[]
        lastOpcode := none
        checksum := none
        cache := w.cache.reset })

/-- Opens a window whose source segment is the first `size` bytes of the dictionary. -/
def openWindow (w : DeltaWriter) (size : Nat) : Call :=
  w.openSegment (if size > 0 then .dictionary 0 size else .none)

/-- Opens a window whose source segment is a part of the target of earlier windows. -/
def openTargetWindow (w : DeltaWriter) (position length : Nat) : Call :=
  if position > maxField then (.error (.tooLarge .targetSegmentPosition position), w)
  else w.openSegment (if length > 0 then .target position length else .none)

/-! ## Writing edits -/

/-- The opcode for an edit, and where it goes. -/
structure OpcodeChoice where
  /-- The place of an opcode that is replaced by this one; `none` for a new opcode. -/
  place : Option Nat
  opcode : UInt8
  /-- The size is written behind the opcode. -/
  explicitSize : Bool

def fixedSize? (size : Nat) : Option UInt8 :=
  if size < 256 then some (.ofNat size) else none

/-- Of the opcodes that `find` has for a size, the one with the size in it comes before the one with
the size behind it. -/
def chooseOpcode (place : Option Nat) (size : Nat) (find : UInt8 → Option UInt8) :
    Option OpcodeChoice :=
  match (fixedSize? size).bind find with
  | some opcode => some ⟨place, opcode, false⟩
  | none => (find 0).map fun opcode => ⟨place, opcode, true⟩

def choosePair (w : DeltaWriter) (instruction : UInt8) (size mode : Nat) : Option OpcodeChoice := do
  let place ← w.lastOpcode
  let last ← w.instructions[place]?
  chooseOpcode (some place) size fun fixed => w.index.second? last instruction fixed mode

def choose (w : DeltaWriter) (instruction : UInt8) (size mode : Nat) : Option OpcodeChoice :=
  match w.choosePair instruction size mode with
  | some choice => some choice
  | none => chooseOpcode none size fun fixed => w.index.first? instruction fixed mode

def putOpcode (w : DeltaWriter) (choice : OpcodeChoice) (size : Nat) : DeltaWriter :=
  let sizeBytes := if choice.explicitSize then Varint.encode size else []
  let newPlace := w.instructions.size
  match choice.place with
  | some place =>
    -- An opcode that stands for two edits takes in no third.
    { w with
      instructions := w.instructions.setIfInBounds place choice.opcode ++ sizeBytes
      lastOpcode := none }
  | none =>
    { w with
      instructions := w.instructions.push choice.opcode ++ sizeBytes
      lastOpcode := some newPlace }

def putData (w : DeltaWriter) (bytes : List UInt8) : DeltaWriter :=
  if w.interleaved then { w with instructions := w.instructions ++ bytes }
  else { w with data := w.data ++ bytes }

def putAddress (w : DeltaWriter) (bytes : List UInt8) : DeltaWriter :=
  if w.interleaved then { w with instructions := w.instructions ++ bytes }
  else { w with addresses := w.addresses ++ bytes }

def grow (w : DeltaWriter) (size : Nat) : Call :=
  let length := w.targetLength + size
  if length > maxField then (.error (.tooLarge .targetWindowLength length), w)
  else (.ok (), { w with targetLength := length })

/-- Writes an edit: its opcode, then what `finish` adds, and counts its target bytes. -/
def write (w : DeltaWriter) (instruction : UInt8) (size mode : Nat)
    (finish : DeltaWriter → DeltaWriter) : Call :=
  match w.choose instruction size mode with
  | some choice => (finish (w.putOpcode choice size)).grow size
  -- The opcode before cannot be paired any more: this edit should have stood between.
  | none => (.error (.noOpcode instruction.toNat mode), { w with lastOpcode := none })

def inWindow (w : DeltaWriter) (call : DeltaWriter → Call) : Call :=
  match w.state with
  | .writing => call w
  | .idle => (.error (.usage .instructionBeforeInit), w)
  | .finished => (.error (.usage .instructionAfterFinish), w)

def writeAdd (w : DeltaWriter) (bytes : List UInt8) : Call :=
  let size := bytes.length
  if size > maxField then (.error (.tooLarge .addSize size), w)
  else w.write InstructionType.add size 0 fun w => w.putData bytes

def writeCopy (w : DeltaWriter) (address size : Nat) : Call :=
  let here := w.segment.length + w.targetLength
  if address > maxField then (.error (.tooLarge .copyAddress address), w)
  else if address ≥ here then (.error (.usage .addressBeyondPosition), w)
  else
    -- The address is recorded even if the copy is refused below.
    let (mode, code, cache) := w.cache.encode address here
    { w with cache := cache }.write InstructionType.copy size (mode.number cache.sizes) fun w =>
      w.putAddress code.toBytes

/-- Writes an edit. An edit that makes no bytes is passed over. -/
def edit (w : DeltaWriter) (e : Edit) : Call :=
  w.inWindow fun w =>
    if e.size = 0 then (.ok (), w)
    else
      match e with
      | .add bytes => w.writeAdd bytes
      | .copy address size => w.writeCopy address size
      | .run size byte => w.write InstructionType.run size 0 fun w => w.putData [byte]

def edits (w : DeltaWriter) : List Edit → Call
  | [] => (.ok (), w)
  | e :: rest =>
    match w.edit e with
    | (.ok (), w) => edits w rest
    | refused => refused

def setChecksum (w : DeltaWriter) (checksum : Nat) : DeltaWriter :=
  { w with checksum := some checksum }

/-! ## Closing a window -/

def checkLength (field : BoundedField) (length : Nat) : Except EncodeError Nat :=
  if length > maxField then .error (.tooLarge field length) else .ok length

def windowHeader (w : DeltaWriter) : Except EncodeError WindowHeader := do
  let data ← checkLength .dataSectionLength w.data.size
  let instructions ← checkLength .instructionSectionLength w.instructions.size
  let addresses ← checkLength .addressSectionLength w.addresses.size
  pure {
    segment := w.segment
    targetLength := w.targetLength
    sections := { data, instructions, addresses, checksum := w.checksum } }

/-- The finished window. A window with nothing in it is left out. -/
def windowBytes (w : DeltaWriter) : Except EncodeError (List UInt8) :=
  if w.instructions.isEmpty && w.checksum.isNone then .ok []
  else do
    let header ← w.windowHeader
    pure (header.toBytes ++ (w.data.toList ++ (w.instructions.toList ++ w.addresses.toList)))

/-- Closes the window and hands it out. The window is closed even if it is refused. -/
def closeWindow (w : DeltaWriter) : Except EncodeError (List UInt8) × DeltaWriter :=
  match w.state with
  | .writing => (w.windowBytes, { w with state := .idle })
  | .idle => (.error (.usage .instructionBeforeInit), w)
  | .finished => (.error (.usage .instructionAfterFinish), w)

def finish (w : DeltaWriter) : Call :=
  match w.state with
  | .writing => (.error (.usage .finishInsideWindow), w)
  | _ => (.ok (), { w with state := .finished })

end DeltaWriter

end DeltaCoding
