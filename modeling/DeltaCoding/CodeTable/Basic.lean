import DeltaCoding.Error

/-!
# Code tables

A code table gives each of the 256 opcodes one or two instructions. An instruction is a slot of an
entry: its type, its size and, for COPY, its address mode. A slot of size zero has its size written
behind the opcode; a NOOP slot stands for nothing.

A table is stored as six columns of 256 bytes: the types of the first and of the second slots, then
their sizes, then their modes. A table read from its stored form need not make sense;
`CodeTable.Validity` says when it does.
-/

namespace DeltaCoding

/-! ## Instruction types -/

namespace InstructionType

def noop : UInt8 := 0

def add : UInt8 := 1

def run : UInt8 := 2

def copy : UInt8 := 3

end InstructionType

/-! ## Slots and entries -/

/-- One instruction of an opcode. -/
structure Slot where
  instruction : UInt8
  size : UInt8
  mode : UInt8
deriving DecidableEq

namespace Slot

def noop : Slot := ⟨InstructionType.noop, 0, 0⟩

def add (size : UInt8) : Slot := ⟨InstructionType.add, size, 0⟩

def run (size : UInt8) : Slot := ⟨InstructionType.run, size, 0⟩

def copy (size mode : UInt8) : Slot := ⟨InstructionType.copy, size, mode⟩

instance : Inhabited Slot := ⟨noop⟩

/-- The slot stands for nothing. Its other fields do not matter. -/
def isNoop (slot : Slot) : Bool :=
  slot.instruction == InstructionType.noop

end Slot

/-- The instructions of one opcode. -/
structure Entry where
  first : Slot
  second : Slot
deriving DecidableEq

namespace Entry

def one (slot : Slot) : Entry := ⟨slot, .noop⟩

instance : Inhabited Entry := ⟨one .noop⟩

def single? (entry : Entry) : Option Slot :=
  match entry.first.isNoop, entry.second.isNoop with
  | false, true => some entry.first
  | true, false => some entry.second
  | _, _ => none

def isDouble (entry : Entry) : Bool :=
  !entry.first.isNoop && !entry.second.isNoop

end Entry

/-! ## Tables -/

def opcodeCount : Nat := 256

/-- The instructions of every opcode. -/
structure CodeTable where
  entries : Vector Entry opcodeCount
deriving DecidableEq

namespace CodeTable

def storedSize : Nat := 6 * opcodeCount

def place (opcode : UInt8) : Fin opcodeCount :=
  ⟨opcode.toNat, opcode.toNat_lt⟩

def entry (table : CodeTable) (opcode : UInt8) : Entry :=
  table.entries.get (place opcode)

def ofFn (entry : Fin opcodeCount → Entry) : CodeTable :=
  ⟨.ofFn entry⟩

def toList (table : CodeTable) : List (UInt8 × Entry) :=
  (List.finRange opcodeCount).map fun i => (.ofNat i.val, table.entries.get i)

def toBytes (table : CodeTable) : Array UInt8 :=
  let column (field : Entry → UInt8) : Array UInt8 := table.entries.toArray.map field
  column (·.first.instruction) ++ column (·.second.instruction) ++
    column (·.first.size) ++ column (·.second.size) ++
    column (·.first.mode) ++ column (·.second.mode)

/-- Reads a stored table. Any bytes will do, so long as their number is right. -/
def ofBytes (bytes : Array UInt8) : Except TableFault CodeTable :=
  if bytes.size = storedSize then
    let column (n : Nat) (i : Fin opcodeCount) : UInt8 := bytes[n * opcodeCount + i.val]?.getD 0
    .ok <| ofFn fun i =>
      { first := ⟨column 0 i, column 2 i, column 4 i⟩
        second := ⟨column 1 i, column 3 i, column 5 i⟩ }
  else .error (.wrongLength storedSize bytes.size)

end CodeTable

end DeltaCoding
