import DeltaCoding.CodeTable.Basic

/-!
# Finding opcodes

A writer looks for the opcode of an instruction, and for the opcode of an instruction together with
the one in front of it. Of several opcodes the lowest counts.

Instructions are looked up by a key, the sum of type and mode. Among slots of a valid table the key
names type and mode, because only COPY, the last type, has modes. A second instruction is looked up
behind the opcode of the first one alone.
-/

namespace DeltaCoding

def instructionKey (instruction : UInt8) (mode : Nat) : Nat :=
  instruction.toNat + mode

def Slot.key (slot : Slot) : Nat :=
  instructionKey slot.instruction slot.mode.toNat

/-- An opcode that stands for one instruction. -/
structure SingleOpcode where
  key : Nat
  size : UInt8
  opcode : UInt8

/-- An opcode that stands for the instruction of another opcode and one more. -/
structure DoubleOpcode where
  firstOpcode : UInt8
  key : Nat
  size : UInt8
  opcode : UInt8

/-- The opcodes of a table by what they stand for, each list in ascending order of opcodes. -/
structure OpcodeIndex where
  singles : List SingleOpcode
  doubles : List DoubleOpcode
deriving Inhabited

namespace OpcodeIndex

/-- The single opcodes with a key that modes up to `maxMode` can have. -/
def singlesOf (table : CodeTable) (maxMode : Nat) : List SingleOpcode :=
  table.toList.filterMap fun (opcode, entry) => do
    let slot ← entry.single?
    if slot.key ≤ InstructionType.copy.toNat + maxMode then
      some ⟨slot.key, slot.size, opcode⟩
    else none

def findSingle? (singles : List SingleOpcode) (key : Nat) (size : UInt8) : Option UInt8 :=
  (singles.find? fun s => s.key == key && s.size == size).map (·.opcode)

/-- The double opcodes whose first instruction has an opcode of its own. -/
def doublesOf (table : CodeTable) (singles : List SingleOpcode) : List DoubleOpcode :=
  table.toList.filterMap fun (opcode, entry) => do
    if entry.isDouble then
      let firstOpcode ← findSingle? singles entry.first.key entry.first.size
      some ⟨firstOpcode, entry.second.key, entry.second.size, opcode⟩
    else none

def ofTable (table : CodeTable) (maxMode : Nat) : OpcodeIndex :=
  let singles := singlesOf table maxMode
  ⟨singles, doublesOf table singles⟩

/-- The opcode for one instruction. Size zero asks for the opcode with an explicit size. -/
def first? (index : OpcodeIndex) (instruction size : UInt8) (mode : Nat) : Option UInt8 :=
  findSingle? index.singles (instructionKey instruction mode) size

/-- The opcode for the instruction of `firstOpcode` and one more behind it. -/
def second? (index : OpcodeIndex) (firstOpcode instruction size : UInt8) (mode : Nat) :
    Option UInt8 :=
  let key := instructionKey instruction mode
  (index.doubles.find? fun d =>
    d.firstOpcode == firstOpcode && d.key == key && d.size == size).map (·.opcode)

end OpcodeIndex

end DeltaCoding
