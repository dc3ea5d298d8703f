import DeltaCoding.Proofs.CodeTable.Lowest
import DeltaCoding.Proofs.Writer.Acceptance

namespace DeltaCoding

namespace DeltaWriter

variable {w : DeltaWriter} {instruction : UInt8} {mode : Nat}

theorem write_finds {e : Edit} {supplied : SectionBytes} {finish : DeltaWriter → DeltaWriter}
    (usable : w.Usable) (writes : w.Writes e instruction mode supplied finish) (n m : Nat) :
    (w.write instruction e.size mode finish).1 ≠ .error (.noOpcode n m) := by
  obtain ⟨choice, chosen⟩ := choose_some usable (writes.query usable) e.size
  simp only [write, chosen, grow]
  split
  · exact fun h => by cases h
  · exact fun h => by cases h

theorem edit_finds (usable : w.Usable) (e : Edit) (n m : Nat) :
    (w.edit e).1 ≠ .error (.noOpcode n m) := by
  simp only [edit, inWindow]
  split
  · split
    · exact fun h => by cases h
    · next nonempty =>
      have positive : 0 < e.size := Nat.pos_of_ne_zero nonempty
      cases e with
      | add bytes =>
        simp only [writeAdd]
        split
        · exact fun h => by cases h
        · exact write_finds usable (writes_add positive) n m
      | run size byte => exact write_finds usable (writes_run positive) n m
      | copy address size =>
        simp only [writeCopy]
        split
        · exact fun h => by cases h
        · next field =>
          split
          · exact fun h => by cases h
          · next before =>
            obtain ⟨sizes, writes⟩ := @writes_copy w size address _ _ _ _ positive
              (Nat.not_lt.1 field) (Nat.not_le.1 before) rfl
            exact write_finds ⟨sizes.symm ▸ usable.valid, sizes.symm ▸ usable.index⟩ writes n m
  · exact fun h => by cases h
  · exact fun h => by cases h

end DeltaWriter

namespace OpcodeIndex

/-- The searches in a validated table come back with the lowest opcode for an instruction alone, and
behind any opcode found so with the lowest opcode for its instruction and one more, if there are such
opcodes; a writer with the table always has an opcode to write. -/
theorem finds_opcodes {table : CodeTable} {maxMode : UInt8}
    (validated : table.validate maxMode.toNat = .ok ()) :
    (∀ instruction size mode, Askable maxMode.toNat instruction mode →
      Finds ((ofTable table maxMode.toNat).first? instruction size mode)
        {opcode | (table.entry opcode).Alone ⟨instruction, size, .ofNat mode⟩} ∧
      ∀ last, (ofTable table maxMode.toNat).Returns maxMode.toNat last →
        ∃ slot, (table.entry last).Alone slot ∧
          Finds ((ofTable table maxMode.toNat).second? last instruction size mode)
            {opcode | table.entry opcode = ⟨slot, ⟨instruction, size, .ofNat mode⟩⟩}) ∧
    ∀ w : DeltaWriter, w.table = table → w.cache.sizes.maxMode = maxMode.toNat →
      w.index = ofTable table maxMode.toNat →
      (∀ instruction size mode, Askable maxMode.toNat instruction mode →
        ∃ choice, w.choose instruction size mode = some choice) ∧
      ∀ e n m, (w.edit e).1 ≠ .error (.noOpcode n m) := by
  have valid := CodeTable.valid_of_validate validated
  have bytes : maxMode.toNat ≤ 255 := Nat.le_of_lt_succ maxMode.toNat_lt
  refine ⟨fun instruction size mode query => ⟨finds_first valid query bytes, ?_⟩, ?_⟩
  · intro last returned
    obtain ⟨instruction', size', mode', query', found⟩ := id returned
    have alone := Entry.alone_iff.2 (single?_of_first? valid query' found)
    exact ⟨_, alone, finds_second valid returned alone query bytes⟩
  · rintro w rfl sizes index
    have usable : w.Usable := ⟨sizes ▸ valid, sizes ▸ index⟩
    exact ⟨fun instruction size mode query => DeltaWriter.choose_some usable (sizes ▸ query) size,
      DeltaWriter.edit_finds usable⟩

/-- Two opcodes stand for the same RUN in their second slot, and three for the same pair: the lowest of
them are found. -/
theorem finds_opcodes_shadowed :
    let table : CodeTable := .ofFn fun i =>
      if i.val = 200 ∨ i.val = 210 then ⟨.noop, .run 9⟩
      else if i.val = 190 ∨ i.val = 220 then ⟨.add 1, .copy 4 0⟩
      else CodeTable.standard.entries.get i
    table.validate (8 : UInt8).toNat = .ok () ∧
      IsLeast {opcode | (table.entry opcode).Alone (.run 9)} 200 ∧
      IsLeast {opcode | table.entry opcode = ⟨.add 1, .copy 4 0⟩} 163 ∧
      {opcode | table.entry opcode = ⟨.run 9, .copy 4 0⟩} = ∅ := by
  intro table
  have validated : table.validate (8 : UInt8).toNat = .ok () := by decide +kernel
  obtain ⟨run, add, pair, none_⟩ :
      (ofTable table (8 : UInt8).toNat).first? InstructionType.run 9 0 = some 200 ∧
      (ofTable table (8 : UInt8).toNat).first? InstructionType.add 1 0 = some 2 ∧
      (ofTable table (8 : UInt8).toNat).second? 2 InstructionType.copy 4 0 = some 163 ∧
      (ofTable table (8 : UInt8).toNat).second? 200 InstructionType.copy 4 0 = none := by
    decide +kernel
  obtain ⟨searches, -⟩ := finds_opcodes validated
  obtain ⟨-, pairs⟩ := searches InstructionType.copy 4 0 (.copy (Nat.zero_le _))
  obtain ⟨first, alone, found⟩ := pairs 2 ⟨_, _, _, .add, add⟩
  obtain ⟨first', alone', found'⟩ := pairs 200 ⟨_, _, _, .run, run⟩
  obtain rfl : Slot.add 1 = first :=
    Option.some.inj ((show (table.entry 2).single? = some (.add 1) by decide +kernel).symm.trans
      (Entry.alone_iff.1 alone))
  obtain rfl : Slot.run 9 = first' :=
    Option.some.inj ((show (table.entry 200).single? = some (.run 9) by decide +kernel).symm.trans
      (Entry.alone_iff.1 alone'))
  exact ⟨validated, ((searches InstructionType.run 9 0 .run).1.lowest 200).1 run,
    (found.lowest 163).1 pair, found'.nothing.1 none_⟩

end OpcodeIndex

end DeltaCoding
