import DeltaCoding.Instruction.Basic

/-!
# Reading instructions

`InstructionReader.next` takes the next instruction off an opcode stream. Slots without effect are
passed over, and the second slot of a double opcode waits for the next call. Reading can be resumed:
an instruction whose size is cut off is not taken at all, and the last instruction can be put back
when its bytes or its address turn out to be missing.
-/

namespace DeltaCoding

/-- What a call of the reader comes to, with the slot that waits and the cursor after it. -/
structure Fetched where
  /-- An instruction, or `none` at the end of the stream. -/
  outcome : Except ParseStop (Option Instruction)
  pending : Option Slot
  cursor : Cursor

/-- Reads instructions off an opcode stream. -/
structure InstructionReader where
  table : CodeTable
  /-- The second slot of the last opcode, if it is still to come. -/
  pending : Option Slot
  /-- The stream offset in front of the last call. -/
  lastOffset : Nat
  /-- The slot that waited before the last call. -/
  lastPending : Option Slot

namespace InstructionReader

def ofTable (table : CodeTable) : InstructionReader :=
  ⟨table, none, 0, none⟩

def reset (reader : InstructionReader) : InstructionReader :=
  ofTable reader.table

def secondSlot? (entry : Entry) : Option Slot :=
  if entry.second.isNoop then none else some entry.second

/-- The slot to look at next, the one that waits behind it, and the cursor between them. -/
def nextSlot? (table : CodeTable) (pending : Option Slot) (c : Cursor) :
    Option (Slot × Option Slot × Cursor) :=
  match pending with
  | some slot => some (slot, none, c)
  | none =>
    match c.rest with
    | [] => none
    | opcode :: rest =>
      let entry := table.entry opcode
      some (entry.first, secondSlot? entry, ⟨c.offset + 1, rest⟩)

/-- How many slots may still come: two for each byte, and the one that waits. -/
def slotBound (pending : Option Slot) (c : Cursor) : Nat :=
  2 * c.rest.length + pending.toList.length

theorem slotBound_nextSlot? {table : CodeTable} {pending pending' : Option Slot} {slot : Slot}
    {c c' : Cursor} (h : nextSlot? table pending c = some (slot, pending', c')) :
    slotBound pending' c' < slotBound pending c := by
  unfold nextSlot? at h
  split at h
  · cases h
    simp [slotBound]
  · split at h
    · cases h
    · next opcode rest hc =>
      have : (secondSlot? (table.entry opcode)).toList.length ≤ 1 := by
        cases secondSlot? (table.entry opcode) <;> simp
      cases h
      simp only [slotBound, hc, List.length_cons, Option.toList_none, List.length_nil]
      omega

def fetch (table : CodeTable) (pending : Option Slot) (c : Cursor) : Fetched :=
  match _hn : nextSlot? table pending c with
  | none => ⟨.ok none, none, c⟩
  | some (slot, waiting, c₁) =>
    match _hp : slot.parse c₁ with
    | .error stop => ⟨.error stop, waiting, c₁⟩
    | .ok (some instruction, c₂) => ⟨.ok (some instruction), waiting, c₂⟩
    | .ok (none, c₂) => fetch table waiting c₂
termination_by slotBound pending c
decreasing_by
  have := slotBound_nextSlot? _hn
  have := (Slot.reaches_parse _hp).length_le
  simp only [slotBound] at *
  omega

/-- Takes the next instruction. If its size is cut off, nothing is taken; if its size is malformed,
its opcode is. -/
def next (reader : InstructionReader) (c : Cursor) :
    Except ParseStop (Option Instruction) × InstructionReader × Cursor :=
  let fetched := fetch reader.table reader.pending c
  let marked := { reader with lastOffset := c.offset, lastPending := reader.pending }
  match fetched.outcome with
  -- Slots that were passed over are put back too; they are met again when there is more input.
  | .error .needMoreData => (.error .needMoreData, marked, c)
  | outcome => (outcome, { marked with pending := fetched.pending }, fetched.cursor)

/-- Puts back what the last call took. The caller sets its cursor to `lastOffset`. -/
def unget (reader : InstructionReader) : InstructionReader :=
  { reader with pending := reader.lastPending }

/-! ## Reading instructions moves forward -/

theorem reaches_nextSlot? {table : CodeTable} {pending pending' : Option Slot} {slot : Slot}
    {c c' : Cursor} (h : nextSlot? table pending c = some (slot, pending', c')) :
    c.Reaches c' := by
  unfold nextSlot? at h
  split at h
  · cases h
    exact .refl _
  · split at h
    · cases h
    · next opcode rest hc =>
      cases h
      exact ⟨[opcode], by simp [hc], rfl⟩

theorem reaches_fetch (table : CodeTable) (pending : Option Slot) (c : Cursor) :
    c.Reaches (fetch table pending c).cursor := by
  fun_induction fetch table pending c with
  | case1 => exact .refl _
  | case2 pending c slot waiting c₁ hn => exact reaches_nextSlot? hn
  | case3 pending c slot waiting c₁ hn i c₂ hp =>
    exact (reaches_nextSlot? hn).trans (Slot.reaches_parse hp)
  | case4 pending c slot waiting c₁ hn c₂ hp ih =>
    exact ((reaches_nextSlot? hn).trans (Slot.reaches_parse hp)).trans ih

theorem slotBound_fetch {table : CodeTable} {pending : Option Slot} {c : Cursor}
    {instruction : Instruction}
    (h : (fetch table pending c).outcome = .ok (some instruction)) :
    slotBound (fetch table pending c).pending (fetch table pending c).cursor <
      slotBound pending c := by
  fun_induction fetch table pending c with
  | case1 => cases h
  | case2 => cases h
  | case3 pending c slot waiting c₁ hn i c₂ hp =>
    have := slotBound_nextSlot? hn
    have := (Slot.reaches_parse hp).length_le
    simp only [slotBound] at *
    omega
  | case4 pending c slot waiting c₁ hn c₂ hp ih =>
    have := slotBound_nextSlot? hn
    have := (Slot.reaches_parse hp).length_le
    have := ih h
    simp only [slotBound] at *
    omega

theorem reaches_next (reader : InstructionReader) (c : Cursor) : c.Reaches (reader.next c).2.2 := by
  simp only [next]
  split
  · exact .refl _
  · exact reaches_fetch _ _ _

/-- Every instruction taken brings the end of the stream nearer. -/
theorem slotBound_next {reader : InstructionReader} {c : Cursor} {instruction : Instruction}
    (h : (reader.next c).1 = .ok (some instruction)) :
    slotBound (reader.next c).2.1.pending (reader.next c).2.2 < slotBound reader.pending c := by
  simp only [next] at h ⊢
  split
  · next hf => simp [hf] at h
  · next hf => exact slotBound_fetch (by simpa [hf] using h)

end InstructionReader

end DeltaCoding
