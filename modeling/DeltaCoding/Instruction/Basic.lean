import DeltaCoding.CodeTable.Basic
import DeltaCoding.Varint

namespace DeltaCoding

/-- A step in the production of the target. -/
inductive Instruction where
  /-- Append `size` literal bytes. -/
  | add (size : Nat)
  /-- Append one byte `size` times. -/
  | run (size : Nat)
  /-- Append `size` bytes from an address that is written in the given mode. -/
  | copy (size mode : Nat)
deriving DecidableEq

namespace Instruction

def size : Instruction → Nat
  | add size => size
  | run size => size
  | copy size _ => size

def ofSlot? (slot : Slot) (size : Nat) : Option Instruction :=
  if slot.instruction = InstructionType.add then some (add size)
  else if slot.instruction = InstructionType.run then some (run size)
  else if slot.instruction = InstructionType.copy then some (copy size slot.mode.toNat)
  else none

end Instruction

namespace Slot

/-- The size of a slot, read behind the opcode if the slot leaves it open. -/
def parseSize (slot : Slot) : Parser Nat :=
  if slot.size = 0 then Varint.parseInt32 else pure slot.size.toNat

def parse (slot : Slot) : Parser (Option Instruction) :=
  if slot.isNoop then pure none
  else do
    let size ← slot.parseSize
    pure (Instruction.ofSlot? slot size)

theorem reaches_parseSize {slot : Slot} {c c' : Cursor} {n : Nat}
    (h : slot.parseSize c = .ok (n, c')) : c.Reaches c' := by
  unfold parseSize at h
  split at h
  · exact (Varint.reaches_parse h).1
  · cases h
    exact .refl _

theorem reaches_parse {slot : Slot} {c c' : Cursor} {i : Option Instruction}
    (h : slot.parse c = .ok (i, c')) : c.Reaches c' := by
  unfold parse at h
  split at h
  · cases h
    exact .refl _
  · simp only [bind, StateT.bind, Except.bind] at h
    split at h
    · cases h
    · next b hb =>
      cases h
      exact reaches_parseSize hb

end Slot

end DeltaCoding
