import DeltaCoding.Instruction.Reader
import DeltaCoding.Proofs.Varint

/-!
# Reading instructions

What an instruction reader makes of an opcode stream depends on its table and on the slot that
waits, and on nothing else of its state. It always has an answer, and more input changes an answer
only if that was a call for more, or the end of the stream. At the end of the stream the reader has
passed over slots without effect, and goes on from there as it would have gone on from where it was
(`fetch_extend_end`). It does the same wherever the stream stands (`fetch_shift`).
-/

namespace DeltaCoding

namespace Slot

theorem local_parseSize (slot : Slot) : slot.parseSize.Local :=
  .ite Varint.local_parseInt32 (.pure _)

theorem local_parse (slot : Slot) : slot.parse.Local :=
  .ite (.pure _) (slot.local_parseSize.bind fun _ => .pure _)

theorem answers_parse (slot : Slot) : slot.parse.Answers :=
  .ite (.pure _) ((Parser.Answers.ite Varint.answers_parseInt32 (.pure _)).bind fun _ => .pure _)

end Slot

namespace InstructionReader

theorem answers_fetch (table : CodeTable) (pending : Option Slot) (c : Cursor) :
    (fetch table pending c).outcome ≠ .error .breach := by
  fun_induction fetch table pending c with
  | case1 =>
    intro h
    cases h
  | case2 pending c slot waiting c₁ hn stop hp =>
    intro breach
    simp only at breach
    cases breach
    exact slot.answers_parse c₁ hp
  | case3 =>
    intro h
    cases h
  | case4 pending c slot waiting c₁ hn c₂ hp ih => exact ih

theorem answers_next (reader : InstructionReader) (c : Cursor) :
    (reader.next c).1 ≠ .error .breach := by
  have answers := answers_fetch reader.table reader.pending c
  simp only [next]
  split
  · intro h
    cases h
  · exact answers

/-! ## More input -/

section Equations

variable {table : CodeTable} {pending waiting : Option Slot} {slot : Slot} {c c₁ c₂ : Cursor}

theorem fetch_error {stop : ParseStop} (h : nextSlot? table pending c = some (slot, waiting, c₁))
    (parsed : slot.parse c₁ = .error stop) :
    fetch table pending c = ⟨.error stop, waiting, c₁⟩ := by
  rw [fetch]
  split
  · next h' => rw [h] at h'; cases h'
  · next h' =>
    rw [h] at h'
    cases h'
    split
    · next parsed' => rw [parsed] at parsed'; cases parsed'; rfl
    · next parsed' => rw [parsed] at parsed'; cases parsed'
    · next parsed' => rw [parsed] at parsed'; cases parsed'

theorem fetch_some {instruction : Instruction}
    (h : nextSlot? table pending c = some (slot, waiting, c₁))
    (parsed : slot.parse c₁ = .ok (some instruction, c₂)) :
    fetch table pending c = ⟨.ok (some instruction), waiting, c₂⟩ := by
  rw [fetch]
  split
  · next h' => rw [h] at h'; cases h'
  · next h' =>
    rw [h] at h'
    cases h'
    split
    · next parsed' => rw [parsed] at parsed'; cases parsed'
    · next parsed' => rw [parsed] at parsed'; cases parsed'; rfl
    · next parsed' => rw [parsed] at parsed'; cases parsed'

theorem fetch_skip (h : nextSlot? table pending c = some (slot, waiting, c₁))
    (parsed : slot.parse c₁ = .ok (none, c₂)) :
    fetch table pending c = fetch table waiting c₂ := by
  rw [fetch]
  split
  · next h' => rw [h] at h'; cases h'
  · next h' =>
    rw [h] at h'
    cases h'
    split
    · next parsed' => rw [parsed] at parsed'; cases parsed'
    · next parsed' => rw [parsed] at parsed'; cases parsed'
    · next parsed' => rw [parsed] at parsed'; cases parsed'; rfl

theorem nextSlot?_extend (h : nextSlot? table pending c = some (slot, waiting, c₁))
    (more : List UInt8) :
    nextSlot? table pending (c.extend more) = some (slot, waiting, c₁.extend more) := by
  simp only [nextSlot?] at h
  split at h
  · cases h
    rfl
  · split at h
    · cases h
    · next rest =>
      cases h
      simp only [nextSlot?, Cursor.extend_rest, rest, List.cons_append]
      rfl

end Equations

theorem fetch_extend {table : CodeTable} {pending : Option Slot} {c : Cursor}
    (final : (fetch table pending c).outcome ≠ .error .needMoreData)
    (some : (fetch table pending c).outcome ≠ .ok none) (more : List UInt8) :
    fetch table pending (c.extend more) =
      { fetch table pending c with cursor := (fetch table pending c).cursor.extend more } := by
  fun_induction fetch table pending c with
  | case1 => exact absurd rfl some
  | case2 pending c slot waiting c₁ hn stop hp =>
    have needsNoMore : stop ≠ .needMoreData := fun h => final (by rw [h])
    exact fetch_error (nextSlot?_extend hn more) (slot.local_parse.extend_error hp needsNoMore more)
  | case3 pending c slot waiting c₁ hn instruction c₂ hp =>
    exact fetch_some (nextSlot?_extend hn more) (slot.local_parse.extend_ok hp more)
  | case4 pending c slot waiting c₁ hn c₂ hp ih =>
    rw [fetch_skip (nextSlot?_extend hn more) (slot.local_parse.extend_ok hp more)]
    exact ih final some

theorem fetch_extend_end {table : CodeTable} {pending : Option Slot} {c : Cursor}
    (ended : (fetch table pending c).outcome = .ok none) (more : List UInt8) :
    fetch table pending (c.extend more) =
      fetch table none ((fetch table pending c).cursor.extend more) := by
  fun_induction fetch table pending c with
  | case1 pending c hn =>
    cases pending with
    | none => rfl
    | some slot => cases hn
  | case2 => cases ended
  | case3 => cases ended
  | case4 pending c slot waiting c₁ hn c₂ hp ih =>
    rw [fetch_skip (nextSlot?_extend hn more) (slot.local_parse.extend_ok hp more)]
    exact ih ended

theorem pending_of_ended {table : CodeTable} {pending : Option Slot} {c : Cursor}
    (ended : (fetch table pending c).outcome = .ok none) :
    (fetch table pending c).pending = none := by
  fun_induction fetch table pending c with
  | case1 => rfl
  | case2 => cases ended
  | case3 => cases ended
  | case4 pending c slot waiting c₁ hn c₂ hp ih => exact ih ended

/-! ## Places -/

theorem nextSlot?_shift (table : CodeTable) (pending : Option Slot) (c : Cursor) (n : Nat) :
    nextSlot? table pending (c.shift n) =
      (nextSlot? table pending c).map fun p => (p.1, p.2.1, p.2.2.shift n) := by
  obtain ⟨offset, rest⟩ := c
  cases pending with
  | some slot => rfl
  | none =>
    cases rest with
    | nil => rfl
    | cons opcode rest => simp only [nextSlot?, Cursor.shift, Option.map_some, Nat.add_right_comm]

theorem fetch_shift (table : CodeTable) (pending : Option Slot) (c : Cursor) (n : Nat) :
    fetch table pending (c.shift n) =
      { fetch table pending c with cursor := (fetch table pending c).cursor.shift n } := by
  fun_induction fetch table pending c with
  | case1 pending c next =>
    have none : nextSlot? table pending (c.shift n) = none := by rw [nextSlot?_shift, next]; rfl
    rw [fetch]
    split
    · rfl
    · next there => rw [none] at there; cases there
  | case2 pending c slot waiting c₁ next stop parsed =>
    exact fetch_error (by rw [nextSlot?_shift, next]; rfl)
      (by rw [slot.local_parse.shift, parsed]; rfl)
  | case3 pending c slot waiting c₁ next instruction c₂ parsed =>
    exact fetch_some (by rw [nextSlot?_shift, next]; rfl)
      (by rw [slot.local_parse.shift, parsed]; rfl)
  | case4 pending c slot waiting c₁ next c₂ parsed ih =>
    rw [← ih]
    exact fetch_skip (by rw [nextSlot?_shift, next]; rfl)
      (by rw [slot.local_parse.shift, parsed]; rfl)

/-- The reader with its place before the last call set to `c`. -/
def mark (reader : InstructionReader) (c : Cursor) : InstructionReader :=
  { reader with lastOffset := c.offset, lastPending := reader.pending }

theorem next_needMore {reader : InstructionReader} {c : Cursor}
    (h : (fetch reader.table reader.pending c).outcome = .error .needMoreData) :
    reader.next c = (.error .needMoreData, reader.mark c, c) := by
  simp only [next, h]
  rfl

theorem next_fetched {reader : InstructionReader} {c : Cursor}
    (h : (fetch reader.table reader.pending c).outcome ≠ .error .needMoreData) :
    reader.next c = ((fetch reader.table reader.pending c).outcome,
      { reader.mark c with pending := (fetch reader.table reader.pending c).pending },
      (fetch reader.table reader.pending c).cursor) := by
  simp only [next]
  rfl

theorem fetched_of_next {reader reader' : InstructionReader} {c c' : Cursor}
    {instruction : Option Instruction} (call : reader.next c = (.ok instruction, reader', c')) :
    (fetch reader.table reader.pending c).outcome = .ok instruction ∧
      reader' = { reader.mark c with pending := (fetch reader.table reader.pending c).pending } ∧
      c' = (fetch reader.table reader.pending c).cursor := by
  have final : (fetch reader.table reader.pending c).outcome ≠ .error .needMoreData := by
    intro needs
    rw [next_needMore needs] at call
    cases call
  rw [next_fetched final] at call
  simp only [Prod.mk.injEq] at call
  exact ⟨call.1, call.2.1.symm, call.2.2.symm⟩

/-- The same reader with `n` more bytes in front of the stream. -/
def shift (reader : InstructionReader) (n : Nat) : InstructionReader :=
  { reader with lastOffset := reader.lastOffset + n }

theorem next_shift (reader : InstructionReader) (c : Cursor) (n : Nat) :
    (reader.shift n).next (c.shift n) =
      ((reader.next c).1, (reader.next c).2.1.shift n, (reader.next c).2.2.shift n) := by
  simp only [next, shift, fetch_shift]
  split <;> rfl

/-- A call does not depend on the calls before it but for the slot that waits. -/
theorem next_past (reader : InstructionReader) (c : Cursor) (lastOffset : Nat)
    (lastPending : Option Slot) :
    next { reader with lastOffset := lastOffset, lastPending := lastPending } c = reader.next c := by
  simp only [next]

@[simp] theorem table_next (reader : InstructionReader) (c : Cursor) :
    (reader.next c).2.1.table = reader.table := by
  simp only [next]
  split <;> rfl

end InstructionReader

end DeltaCoding
