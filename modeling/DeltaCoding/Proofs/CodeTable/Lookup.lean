import DeltaCoding.CodeTable.OpcodeIndex
import DeltaCoding.Proofs.CodeTable.Valid

/-!
# What a found opcode stands for

Opcodes are looked up by the sum of type and mode. Of the slots of a valid table only COPYs have
modes, and COPY is the last type, so that the sum tells both (`Slot.Valid.eq_of_key`). An opcode
found for an instruction then stands for it and nothing else (`single?_of_first?`), and one found
behind another opcode stands for the instruction of that opcode and the one asked for
(`entry_of_second?`).
-/

namespace DeltaCoding

/-- An instruction type with a mode that slots of a valid table can have. -/
inductive Askable (maxMode : Nat) : UInt8 → Nat → Prop where
  | add : Askable maxMode InstructionType.add 0
  | run : Askable maxMode InstructionType.run 0
  | copy {mode : Nat} : mode ≤ maxMode → Askable maxMode InstructionType.copy mode

namespace Slot.Valid

variable {maxMode : Nat} {slot : Slot}

theorem askable (h : slot.Valid maxMode) (noop : slot.isNoop = false) :
    Askable maxMode slot.instruction slot.mode.toNat := by
  obtain ⟨instruction, size, mode⟩ := slot
  have bound := UInt8.le_iff_toNat_le.1 h.instruction
  have nonzero : instruction.toNat ≠ 0 := by
    intro zero
    have : instruction = 0 := UInt8.toNat_inj.1 zero
    subst this
    exact Bool.noConfusion noop
  simp only [InstructionType.copy] at bound
  have cases : instruction.toNat = 1 ∨ instruction.toNat = 2 ∨ instruction.toNat = 3 := by
    have : (3 : UInt8).toNat = 3 := rfl
    omega
  rcases cases with one | two | three
  · have : instruction = InstructionType.add := UInt8.toNat_inj.1 one
    subst this
    have zero : mode = 0 :=
      h.mode_zero (show InstructionType.add ≠ InstructionType.copy by decide)
    subst zero
    exact .add
  · have : instruction = InstructionType.run := UInt8.toNat_inj.1 two
    subst this
    have zero : mode = 0 :=
      h.mode_zero (show InstructionType.run ≠ InstructionType.copy by decide)
    subst zero
    exact .run
  · have : instruction = InstructionType.copy := UInt8.toNat_inj.1 three
    subst this
    exact .copy h.mode_le

end Slot.Valid

theorem InstructionType.toNat_add : InstructionType.add.toNat = 1 := rfl

theorem InstructionType.toNat_run : InstructionType.run.toNat = 2 := rfl

theorem InstructionType.toNat_copy : InstructionType.copy.toNat = 3 := rfl

theorem Askable.eq_of_key {maxMode mode mode' : Nat} {instruction instruction' : UInt8}
    (h : Askable maxMode instruction mode) (h' : Askable maxMode instruction' mode')
    (key : instructionKey instruction mode = instructionKey instruction' mode') :
    instruction = instruction' ∧ mode = mode' := by
  cases h <;> cases h' <;> simp only [instructionKey, InstructionType.toNat_add,
    InstructionType.toNat_run, InstructionType.toNat_copy] at key
  case add.add => exact ⟨rfl, rfl⟩
  case run.run => exact ⟨rfl, rfl⟩
  case copy.copy => exact ⟨rfl, by omega⟩
  all_goals omega

theorem Askable.mode_le {maxMode mode : Nat} {instruction : UInt8}
    (h : Askable maxMode instruction mode) : mode ≤ maxMode := by
  cases h with
  | add => exact Nat.zero_le _
  | run => exact Nat.zero_le _
  | copy bound => exact bound

theorem Askable.isNoop {maxMode mode : Nat} {instruction fixed : UInt8}
    (query : Askable maxMode instruction mode) :
    Slot.isNoop ⟨instruction, fixed, .ofNat mode⟩ = false := by
  cases query <;> rfl

theorem Askable.key_le {maxMode mode : Nat} {instruction : UInt8}
    (h : Askable maxMode instruction mode) :
    instructionKey instruction mode ≤ InstructionType.copy.toNat + maxMode := by
  cases h <;> simp only [instructionKey, InstructionType.toNat_add, InstructionType.toNat_run,
    InstructionType.toNat_copy] <;> omega

/-- A slot with the key and size of a query is the slot that the query is about. -/
theorem Slot.Valid.eq_of_key {maxMode mode : Nat} {slot : Slot} {instruction size : UInt8}
    (h : slot.Valid maxMode) (noop : slot.isNoop = false) (query : Askable maxMode instruction mode)
    (key : slot.key = instructionKey instruction mode) (sizes : slot.size = size) :
    slot = ⟨instruction, size, .ofNat mode⟩ := by
  obtain ⟨same, mode_eq⟩ := (h.askable noop).eq_of_key query key
  subst mode_eq
  rw [UInt8.ofNat_toNat, ← same, ← sizes]

namespace OpcodeIndex

variable {table : CodeTable} {maxMode : Nat}

theorem mem_singlesOf {s : SingleOpcode} : s ∈ singlesOf table maxMode ↔
    ∃ slot, (table.entry s.opcode).single? = some slot ∧ slot.key = s.key ∧ slot.size = s.size ∧
      s.key ≤ InstructionType.copy.toNat + maxMode := by
  simp only [singlesOf, List.mem_filterMap, Option.bind_eq_bind, Option.bind_eq_some_iff]
  constructor
  · rintro ⟨⟨opcode, entry⟩, mem, slot, single, h⟩
    split at h
    · next bound =>
      cases h
      exact ⟨slot, by rw [CodeTable.mem_toList.1 mem]; exact single, rfl, rfl, bound⟩
    · cases h
  · rintro ⟨slot, single, key, size, bound⟩
    refine ⟨(s.opcode, table.entry s.opcode), CodeTable.mem_toList.2 rfl, slot, single, ?_⟩
    rw [if_pos (by omega), key, size]

theorem single?_of_findSingle? {key : Nat} {size opcode : UInt8}
    (h : findSingle? (singlesOf table maxMode) key size = some opcode) :
    ∃ slot, (table.entry opcode).single? = some slot ∧ slot.key = key ∧ slot.size = size := by
  simp only [findSingle?, Option.map_eq_some_iff] at h
  obtain ⟨s, found, rfl⟩ := h
  have matching := List.find?_some found
  simp only [Bool.and_eq_true, beq_iff_eq] at matching
  obtain ⟨slot, single, keys, sizes, -⟩ := mem_singlesOf.1 (List.mem_of_find?_eq_some found)
  exact ⟨slot, single, by rw [keys, matching.1], by rw [sizes, matching.2]⟩

theorem single?_of_first? (valid : table.Valid maxMode) {instruction size opcode : UInt8}
    {mode : Nat} (query : Askable maxMode instruction mode)
    (h : (ofTable table maxMode).first? instruction size mode = some opcode) :
    (table.entry opcode).single? = some ⟨instruction, size, .ofNat mode⟩ := by
  obtain ⟨slot, single, key, sizes⟩ := single?_of_findSingle? h
  obtain ⟨slotValid, noop⟩ := valid.single single
  rw [single, slotValid.eq_of_key noop query key sizes]

theorem first?_explicit (valid : table.Valid maxMode) {instruction : UInt8} {mode : Nat}
    (query : Askable maxMode instruction mode) (bytes : maxMode ≤ 255) :
    ∃ opcode, (ofTable table maxMode).first? instruction 0 mode = some opcode := by
  have single : ∃ opcode slot, (table.entry opcode).single? = some slot ∧
      slot.key = instructionKey instruction mode ∧ slot.size = 0 := by
    cases query with
    | add =>
      obtain ⟨opcode, single⟩ := valid.add
      exact ⟨opcode, _, single, rfl, rfl⟩
    | run =>
      obtain ⟨opcode, single⟩ := valid.run
      exact ⟨opcode, _, single, rfl, rfl⟩
    | copy bound =>
      obtain ⟨opcode, single⟩ := valid.copy bound
      refine ⟨opcode, _, single, ?_, rfl⟩
      simp only [Slot.key, Slot.copy, instructionKey, UInt8.toNat_ofNat']
      omega
  obtain ⟨opcode, slot, single, key, size⟩ := single
  have present : (⟨instructionKey instruction mode, 0, opcode⟩ : SingleOpcode) ∈
      singlesOf table maxMode :=
    mem_singlesOf.2 ⟨slot, single, key, size, query.key_le⟩
  cases found : (singlesOf table maxMode).find? fun s =>
      s.key == instructionKey instruction mode && s.size == 0 with
  | none => simpa using List.find?_eq_none.1 found _ present
  | some s => exact ⟨s.opcode, by simp only [first?, ofTable, findSingle?, found, Option.map_some]⟩

theorem mem_doublesOf {singles : List SingleOpcode} {d : DoubleOpcode} :
    d ∈ doublesOf table singles ↔ (table.entry d.opcode).isDouble = true ∧
      findSingle? singles (table.entry d.opcode).first.key (table.entry d.opcode).first.size =
        some d.firstOpcode ∧
      (table.entry d.opcode).second.key = d.key ∧ (table.entry d.opcode).second.size = d.size := by
  simp only [doublesOf, List.mem_filterMap]
  constructor
  · rintro ⟨⟨opcode, entry⟩, mem, made⟩
    obtain rfl := CodeTable.mem_toList.1 mem
    simp only at made
    split at made
    · next double =>
      simp only [Option.bind_eq_bind, Option.bind_eq_some_iff] at made
      obtain ⟨firstOpcode, found, made⟩ := made
      cases made
      exact ⟨double, found, rfl, rfl⟩
    · cases made
  · rintro ⟨double, found, key, size⟩
    refine ⟨(d.opcode, table.entry d.opcode), CodeTable.mem_toList.2 rfl, ?_⟩
    simp only [double, if_true, found, key, size, Option.bind_eq_bind, Option.bind_some]

theorem entry_of_mem_doubles (valid : table.Valid maxMode) {instruction : UInt8} {mode : Nat}
    {slot : Slot} {d : DoubleOpcode} (query : Askable maxMode instruction mode)
    (single : (table.entry d.firstOpcode).single? = some slot)
    (mem : d ∈ doublesOf table (singlesOf table maxMode))
    (key : d.key = instructionKey instruction mode) :
    table.entry d.opcode = ⟨slot, ⟨instruction, d.size, .ofNat mode⟩⟩ := by
  obtain ⟨double, found, keys, sizes⟩ := mem_doublesOf.1 mem
  simp only [Entry.isDouble, Bool.and_eq_true, Bool.not_eq_true'] at double
  obtain ⟨slot', single', key', size'⟩ := single?_of_findSingle? found
  rw [single] at single'
  cases single'
  obtain ⟨slotValid, slotNoop⟩ := valid.single single
  have firstSlot := (valid.first d.opcode).eq_of_key double.1 (slotValid.askable slotNoop) key'.symm
    size'.symm
  have secondSlot := (valid.second d.opcode).eq_of_key double.2 query (keys.trans key) sizes
  rw [UInt8.ofNat_toNat] at firstSlot
  cases entry : table.entry d.opcode with
  | mk first second =>
    rw [entry] at firstSlot secondSlot
    simp only at firstSlot secondSlot
    rw [firstSlot, secondSlot]

theorem entry_of_second? (valid : table.Valid maxMode) {last instruction size opcode : UInt8}
    {mode : Nat} {slot : Slot} (query : Askable maxMode instruction mode)
    (single : (table.entry last).single? = some slot)
    (h : (ofTable table maxMode).second? last instruction size mode = some opcode) :
    table.entry opcode = ⟨slot, ⟨instruction, size, .ofNat mode⟩⟩ := by
  simp only [second?, Option.map_eq_some_iff] at h
  obtain ⟨d, found, rfl⟩ := h
  have matching := List.find?_some found
  simp only [Bool.and_eq_true, beq_iff_eq] at matching
  obtain ⟨⟨rfl, key⟩, rfl⟩ := matching
  exact entry_of_mem_doubles valid query single (List.mem_of_find?_eq_some found) key

end OpcodeIndex

end DeltaCoding
