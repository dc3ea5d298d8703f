import DeltaCoding.Proofs.Writer.Windows

/-!
# Edits that a writer accepts

An edit is passed over, or refused at once, or written with an opcode that is looked up for it
(`DeltaWriter.edit_cases`). No edit is refused that can be carried out, as long as all addresses fit
their fields: a valid table has an opcode for every instruction (`DeltaWriter.accepts_edits`). An edit
that is accepted takes at most eleven bytes for each byte that it makes (`DeltaWriter.frugal_edits`), so
that the length of a window can be bounded by that of its target.
-/

namespace DeltaCoding

namespace SectionBytes

/-- The number of bytes in all sections. -/
def count (bytes : SectionBytes) : Nat :=
  bytes.data.length + bytes.instructions.length + bytes.addresses.length

theorem count_append (a b : SectionBytes) : (a ++ b).count = a.count + b.count := by
  simp only [count, data_append, instructions_append, addresses_append, List.length_append]
  omega

theorem count_literal (interleaved : Bool) (bytes : List UInt8) :
    (literal interleaved bytes).count = bytes.length := by
  cases interleaved <;> simp [literal, code, count]

theorem count_address (interleaved : Bool) (bytes : List UInt8) :
    (address interleaved bytes).count = bytes.length := by
  cases interleaved <;> simp [address, code, count]

end SectionBytes

namespace DeltaWriter

variable {w w' : DeltaWriter} {instruction : UInt8} {size mode : Nat} {source out : Array UInt8}

theorem choose_some (usable : w.Usable) (query : Askable w.cache.sizes.maxMode instruction mode)
    (size : Nat) : ∃ choice, w.choose instruction size mode = some choice := by
  obtain ⟨opcode, found⟩ := OpcodeIndex.first?_explicit usable.valid query (maxMode_le _)
  rw [← usable.index] at found
  simp only [choose]
  split
  · exact ⟨_, rfl⟩
  · simp only [chooseOpcode]
    split
    · exact ⟨_, rfl⟩
    · exact ⟨_, by rw [found, Option.map_some]⟩

/-! ## What is written -/

/-- The edit is written as an instruction that an opcode is looked up for, and as some bytes that
`finish` puts behind the opcode. -/
structure Writes (w : DeltaWriter) (e : Edit) (instruction : UInt8) (mode : Nat)
    (supplied : SectionBytes) (finish : DeltaWriter → DeltaWriter) : Prop where
  positive : 0 < e.size
  query : w.Usable → Askable w.cache.sizes.maxMode instruction mode
  finishes : ∀ v : DeltaWriter, v.interleaved = w.interleaved → finish v = v.append supplied
  some : 0 < supplied.count
  few : supplied.count ≤ 5 * e.size

theorem writes_add {bytes : List UInt8} (positive : 0 < bytes.length) :
    w.Writes (.add bytes) InstructionType.add 0 (.literal w.interleaved bytes)
      fun v => v.putData bytes where
  positive := positive
  query _ := .add
  finishes v same := by rw [putData_eq, same]
  some := by rwa [SectionBytes.count_literal]
  few := by
    rw [SectionBytes.count_literal, Edit.size]
    omega

theorem writes_run {byte : UInt8} (positive : 0 < size) :
    w.Writes (.run size byte) InstructionType.run 0 (.literal w.interleaved [byte])
      fun v => v.putData [byte] where
  positive := positive
  query _ := .run
  finishes v same := by rw [putData_eq, same]
  some := by
    rw [SectionBytes.count_literal]
    exact Nat.zero_lt_one
  few := by
    rw [SectionBytes.count_literal, List.length_singleton, Edit.size]
    omega

theorem writes_copy {address here : Nat} {mode : AddressMode} {code : AddressCode}
    {cache : AddressCache} (positive : 0 < size) (field : address ≤ maxField)
    (before : address < here) (encoded : w.cache.encode address here = (mode, code, cache)) :
    cache.sizes = w.cache.sizes ∧
      Writes { w with cache := cache } (.copy address size) InstructionType.copy
        (mode.number cache.sizes) (.address w.interleaved code.toBytes)
        fun v => v.putAddress code.toBytes := by
  have recorded := AddressCache.sizes_encode w.cache address here
  have short := @AddressCache.length_encode_le w.cache address here before field
  rw [encoded] at recorded short
  simp only at recorded short
  subst recorded
  refine ⟨rfl, positive, fun usable => ?_, fun v same => by rw [putAddress_eq, same], ?_, ?_⟩
  · obtain ⟨inside, -⟩ := @AddressCache.reads_encode w.cache _ _ _ _ _ usable.valid.resolvable
      before field encoded
    exact .copy (AddressMode.number_le inside)
  · rw [SectionBytes.count_address]
    exact List.length_pos_iff.2 (toBytes_ne_nil code)
  · rw [SectionBytes.count_address, Edit.size]
    omega

/-- An edit is passed over, or it is refused before anything is done, or it is written. -/
theorem edit_cases (w : DeltaWriter) (e : Edit) :
    w.edit e = (.ok (), w) ∨
      (∃ error, w.edit e = (.error error, w) ∧ ∀ n, error ≠ .tooLarge .targetWindowLength n) ∨
      ∃ cache instruction mode supplied finish, cache.sizes = w.cache.sizes ∧
        Writes { w with cache := cache } e instruction mode supplied finish ∧
        w.edit e = write { w with cache := cache } instruction e.size mode finish := by
  simp only [edit, inWindow]
  split
  · split
    · exact .inl rfl
    · next nonempty =>
      have positive : 0 < e.size := Nat.pos_of_ne_zero nonempty
      refine .inr ?_
      cases e with
      | add bytes =>
        simp only [writeAdd]
        split
        · exact .inl ⟨_, rfl, fun _ h => by cases h⟩
        · exact .inr ⟨w.cache, _, _, _, _, rfl, writes_add positive, rfl⟩
      | run size byte => exact .inr ⟨w.cache, _, _, _, _, rfl, writes_run positive, rfl⟩
      | copy address size =>
        simp only [writeCopy]
        split
        · exact .inl ⟨_, rfl, fun _ h => by cases h⟩
        · next field =>
          split
          · exact .inl ⟨_, rfl, fun _ h => by cases h⟩
          · next before =>
            obtain ⟨sizes, writes⟩ := @writes_copy w size address _ _ _ _ positive
              (Nat.not_lt.1 field) (Nat.not_le.1 before) rfl
            exact .inr ⟨_, _, _, _, _, sizes, writes, rfl⟩
  · exact .inr (.inl ⟨_, rfl, fun _ h => by cases h⟩)
  · exact .inr (.inl ⟨_, rfl, fun _ h => by cases h⟩)

/-! ## Lengths -/

theorem count_putOpcode {choice : OpcodeChoice} (field : size ≤ maxField) :
    (w.putOpcode choice size).written.count ≤ w.written.count + 6 := by
  have length := Varint.encodedLength_le_int32 field
  have sizes : (if choice.explicitSize then Varint.encode size else []).length ≤ 5 := by
    split
    · rw [Varint.length_encode]
      exact length
    · exact Nat.zero_le _
  simp only [putOpcode]
  split
  all_goals
    simp [written, SectionBytes.count]
    omega

/-- What has been written takes at most eleven bytes for each target byte. -/
def Frugal (w w' : DeltaWriter) : Prop :=
  w'.written.count + 11 * w.targetLength ≤ w.written.count + 11 * w'.targetLength

theorem Frugal.refl (w : DeltaWriter) : w.Frugal w :=
  Nat.le_refl _

theorem Frugal.trans {a b c : DeltaWriter} (hab : a.Frugal b) (hbc : b.Frugal c) : a.Frugal c := by
  simp only [Frugal] at *
  omega

theorem frugal_write {e : Edit} {supplied : SectionBytes} {finish : DeltaWriter → DeltaWriter}
    (writes : w.Writes e instruction mode supplied finish)
    (h : w.write instruction e.size mode finish = (.ok (), w')) : w.Frugal w' := by
  obtain ⟨choice, -, field, rfl⟩ := write_ok writes.finishes h
  have bound := @count_putOpcode w e.size choice (by omega)
  have bytes := written_append (w.putOpcode choice e.size) supplied
  have few := writes.few
  have positive := writes.positive
  have count : ((w.putOpcode choice e.size).append supplied).written.count ≤
      w.written.count + 6 + supplied.count := by
    rw [bytes, SectionBytes.count_append]
    omega
  change ((w.putOpcode choice e.size).append supplied).written.count + 11 * w.targetLength ≤
    w.written.count + 11 * (w.targetLength + e.size)
  omega

theorem frugal_edit {e : Edit} (h : w.edit e = (.ok (), w')) : w.Frugal w' := by
  obtain passed | ⟨error, refused, -⟩ | ⟨cache, _, _, _, _, -, writes, written⟩ := w.edit_cases e
  · rw [passed] at h
    cases h
    exact .refl w
  · rw [refused] at h
    cases h
  · rw [written] at h
    have frugal := frugal_write writes h
    exact frugal

theorem frugal_edits {es : List Edit} (h : w.edits es = (.ok (), w')) : w.Frugal w' := by
  induction es generalizing w with
  | nil =>
    cases h
    exact .refl _
  | cons e rest ih =>
    simp only [edits] at h
    split at h
    · next first => exact (frugal_edit first).trans (ih h)
    · next refused => exact absurd h (fun accepted => refused _ accepted)

/-! ## Acceptance -/

theorem accepts_write {e : Edit} {supplied : SectionBytes} {finish : DeltaWriter → DeltaWriter}
    (usable : w.Usable) (writes : w.Writes e instruction mode supplied finish)
    (field : w.targetLength + e.size ≤ maxField) :
    ∃ w', w.write instruction e.size mode finish = (.ok (), w') := by
  obtain ⟨choice, chosen⟩ := choose_some usable (writes.query usable) e.size
  obtain ⟨instructions, lastOpcode, -, -, put⟩ := w.putOpcode_eq choice e.size
  have finished := writes.finishes (w.putOpcode choice e.size) (by rw [put])
  have length : ((w.putOpcode choice e.size).append supplied).targetLength = w.targetLength := by
    rw [put]
    rfl
  refine ⟨{ (w.putOpcode choice e.size).append supplied with
    targetLength := w.targetLength + e.size }, ?_⟩
  simp only [write, chosen, finished, grow, length]
  rw [if_neg (by omega)]

theorem accepts_writeAdd {bytes : List UInt8} (usable : w.Usable) (positive : 0 < bytes.length)
    (field : w.targetLength + bytes.length ≤ maxField) :
    ∃ w', w.writeAdd bytes = (.ok (), w') := by
  simp only [writeAdd]
  rw [if_neg (by omega)]
  exact accepts_write usable (writes_add positive) field

theorem accepts_writeCopy {address : Nat} (usable : w.Usable) (positive : 0 < size)
    (before : address < w.segment.length + w.targetLength)
    (field : w.segment.length + w.targetLength + size ≤ maxField) :
    ∃ w', w.writeCopy address size = (.ok (), w') := by
  have fits : w.targetLength + size ≤ maxField := by omega
  have addressable : address ≤ maxField := by omega
  obtain ⟨sizes, writes⟩ := @writes_copy w size address _ _ _ _ positive addressable before rfl
  simp only [writeCopy]
  rw [if_neg (by omega), if_neg (by omega)]
  exact accepts_write ⟨sizes.symm ▸ usable.valid, sizes.symm ▸ usable.index⟩ writes fits

theorem accepts_edit {e : Edit} (usable : w.Usable) (holds : w.Holds source out)
    (writing : w.state = .writing)
    (before : ∀ address size, e = .copy address size → 0 < size →
      address < source.size + out.size)
    (room : source.size + out.size + e.size ≤ maxField) : ∃ w', w.edit e = (.ok (), w') := by
  have length := holds.targetLength
  have here : w.segment.length + w.targetLength = source.size + out.size := by
    rw [holds.segment, length]
  simp only [edit, inWindow, writing]
  by_cases empty : e.size = 0
  · rw [if_pos empty]
    exact ⟨w, rfl⟩
  · have positive : 0 < e.size := Nat.pos_of_ne_zero empty
    rw [if_neg empty]
    cases e with
    | add bytes => exact accepts_writeAdd usable positive (by simp only [Edit.size] at room; omega)
    | run size byte =>
      exact accepts_write usable (writes_run positive) (by simp only [Edit.size] at room ⊢; omega)
    | copy address size =>
      apply accepts_writeCopy usable positive
      · rw [here]
        exact before address size rfl positive
      · rw [here]
        exact room

theorem accepts_edits {target : Array UInt8} {es : List Edit} {pos stop : Nat} (usable : w.Usable)
    (holds : w.Holds source (target.extract 0 pos)) (writing : w.state = .writing)
    (covers : Edit.Covers source target pos es stop) (inside : pos ≤ target.size)
    (room : source.size + target.size ≤ maxField) : ∃ w', w.edits es = (.ok (), w') := by
  -- The invariant is that the window's bytes make the target up to `pos`.
  induction es generalizing w pos with
  | nil => exact ⟨w, rfl⟩
  | cons e rest ih =>
    obtain ⟨extends_, others⟩ := covers
    have length : (target.extract 0 pos).size = pos := by
      rw [Array.size_extract]
      omega
    have end_ := extends_.inside
    obtain ⟨w', first⟩ := accepts_edit usable holds writing (length.symm ▸ extends_.before)
      (by omega)
    obtain ⟨holds', keeps⟩ := holds_edit usable holds first
    rw [extends_.replay] at holds'
    obtain ⟨w'', later⟩ := ih (keeps.usable usable) holds' (keeps.state.trans writing) others end_
    refine ⟨w'', ?_⟩
    simp only [edits, first]
    exact later

end DeltaWriter

end DeltaCoding
