import DeltaCoding.CodeTable.Basic

/-!
# Valid code tables

A table can be used with given caches when every slot makes sense on its own and every instruction
can be written with an explicit size: there are single opcodes of size zero for ADD, for RUN and for
COPY in every mode. Then a writer always finds an opcode and a reader never meets a slot that it
cannot carry out.
-/

namespace DeltaCoding

namespace Slot

def check (slot : Slot) (opcode maxMode : Nat) : Except TableFault Unit :=
  if slot.instruction > InstructionType.copy then
    .error (.unknownInstruction opcode slot.instruction.toNat)
  else if slot.mode.toNat > maxMode then
    .error (.modeTooLarge opcode slot.mode.toNat maxMode)
  else if slot.isNoop && slot.size != 0 then
    .error (.noopWithSize opcode)
  else if slot.instruction != InstructionType.copy && slot.mode != 0 then
    .error (.modeWithoutCopy opcode)
  else .ok ()

end Slot

namespace CodeTable

def checkSlots (maxMode : Nat) : List (UInt8 × Entry) → Except TableFault Unit
  | [] => .ok ()
  | (opcode, entry) :: rest => do
    entry.first.check opcode.toNat maxMode
    entry.second.check opcode.toNat maxMode
    checkSlots maxMode rest

def hasSingle (table : CodeTable) (slot : Slot) : Bool :=
  table.toList.any fun (_, entry) => entry.single? == some slot

/-- The instructions that need an opcode of their own with an explicit size, each with what it
means that there is none. -/
def required (maxMode : Nat) : List (Slot × TableFault) :=
  (.add 0, .missingAdd) :: (.run 0, .missingRun) ::
    (List.range (maxMode + 1)).map fun mode => (.copy 0 (.ofNat mode), .missingCopy mode)

def validate (table : CodeTable) (maxMode : Nat) : Except TableFault Unit := do
  checkSlots maxMode table.toList
  match (required maxMode).find? fun (slot, _) => !table.hasSingle slot with
  | some (_, fault) => .error fault
  | none => .ok ()

end CodeTable

end DeltaCoding
