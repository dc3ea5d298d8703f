import DeltaCoding.Proofs.Window.Reading
import DeltaCoding.Writer.Delta

/-!
# Written edits make their target

Every edit that a writer accepts adds to the bytes of the window what makes the edit, so that at any
time the window's bytes make the target so far (`DeltaWriter.Holds`). An edit that goes into the last
opcode turns the end of these bytes from a single opcode into a double one.
-/

namespace DeltaCoding

namespace DeltaWriter

variable {w w' : DeltaWriter} {instruction : UInt8} {size mode : Nat}

/-- The bytes of the window so far. -/
def written (w : DeltaWriter) : SectionBytes :=
  ⟨w.data.toList, w.instructions.toList, w.addresses.toList⟩

/-- Adds to the bytes of the window. -/
def append (w : DeltaWriter) (bytes : SectionBytes) : DeltaWriter :=
  { w with
    data := w.data ++ bytes.data
    instructions := w.instructions ++ bytes.instructions
    addresses := w.addresses ++ bytes.addresses }

@[simp] theorem written_append (w : DeltaWriter) (bytes : SectionBytes) :
    (w.append bytes).written = w.written ++ bytes := by
  simp only [written, append, Array.toList_appendList]
  rfl

theorem putData_eq (w : DeltaWriter) (bytes : List UInt8) :
    w.putData bytes = w.append (.literal w.interleaved bytes) := by
  cases h : w.interleaved with
  | false => simp [putData, append, SectionBytes.literal, h]
  | true => simp [putData, append, SectionBytes.literal, SectionBytes.code, h]

theorem putAddress_eq (w : DeltaWriter) (bytes : List UInt8) :
    w.putAddress bytes = w.append (.address w.interleaved bytes) := by
  cases h : w.interleaved with
  | false => simp [putAddress, append, SectionBytes.address, h]
  | true => simp [putAddress, append, SectionBytes.address, SectionBytes.code, h]

/-! ## Choosing an opcode -/

/-- A slot of size `fixed` holds the size, or leaves it to be written behind the opcode. -/
def Fits (fixed : UInt8) (size : Nat) (explicit : Bool) : Prop :=
  fixed.toNat = size ∧ explicit = false ∨ fixed = 0 ∧ explicit = true

theorem fits_of_chooseOpcode {place : Option Nat} {find : UInt8 → Option UInt8}
    {choice : OpcodeChoice} (h : chooseOpcode place size find = some choice) :
    choice.place = place ∧ ∃ fixed, find fixed = some choice.opcode ∧
      Fits fixed size choice.explicitSize := by
  simp only [chooseOpcode] at h
  split at h
  · next found =>
    cases h
    obtain ⟨fixed, holds, found⟩ := Option.bind_eq_some_iff.1 found
    refine ⟨rfl, fixed, found, .inl ⟨?_, rfl⟩⟩
    simp only [fixedSize?] at holds
    split at holds
    · next small =>
      cases holds
      rw [UInt8.toNat_ofNat', Nat.mod_eq_of_lt small]
    · cases holds
  · obtain ⟨opcode, found, rfl⟩ := Option.map_eq_some_iff.1 h
    exact ⟨rfl, 0, found, .inr ⟨rfl, rfl⟩⟩

/-- An opcode goes into the last one, or stands by itself. -/
theorem choose_cases {choice : OpcodeChoice} (h : w.choose instruction size mode = some choice) :
    ∃ fixed, Fits fixed size choice.explicitSize ∧
      ((∃ place last, choice.place = some place ∧ w.lastOpcode = some place ∧
          w.instructions[place]? = some last ∧
          w.index.second? last instruction fixed mode = some choice.opcode) ∨
        choice.place = none ∧ w.index.first? instruction fixed mode = some choice.opcode) := by
  simp only [choose] at h
  split at h
  · next paired =>
    cases h
    simp only [choosePair, Option.bind_eq_bind, Option.bind_eq_some_iff] at paired
    obtain ⟨place, open_, last, there, chosen⟩ := paired
    obtain ⟨placed, fixed, found, fits⟩ := fits_of_chooseOpcode chosen
    exact ⟨fixed, fits, .inl ⟨place, last, placed, open_, there, found⟩⟩
  · obtain ⟨placed, fixed, found, fits⟩ := fits_of_chooseOpcode h
    exact ⟨fixed, fits, .inr ⟨placed, found⟩⟩

theorem reads_slot {fixed : UInt8} {explicit : Bool} {i : Instruction}
    (noop : Slot.isNoop ⟨instruction, fixed, .ofNat mode⟩ = false)
    (amounts : Instruction.ofSlot? ⟨instruction, fixed, .ofNat mode⟩ size = some i)
    (positive : 0 < size) (field : size ≤ maxField) (fits : Fits fixed size explicit) :
    Parser.Reads (Slot.parse ⟨instruction, fixed, .ofNat mode⟩)
      (if explicit then Varint.encode size else []) (some i) := by
  have sized : Parser.Reads (Slot.parseSize ⟨instruction, fixed, .ofNat mode⟩)
      (if explicit then Varint.encode size else []) size := by
    rcases fits with ⟨fixedSize, rfl⟩ | ⟨rfl, rfl⟩
    · have nonzero : fixed ≠ 0 := by
        rintro rfl
        exact absurd fixedSize (Nat.ne_of_lt positive)
      simp only [Slot.parseSize, if_neg nonzero, fixedSize]
      exact .pure size
    · exact Varint.reads_encode_int32 field
  simp only [Slot.parse, noop]
  exact sized.bind_pure fun c => by rw [amounts]; rfl

/-! ## The invariant -/

/-- The writer's table can be used with its caches, and its index is that of the table. -/
structure Usable (w : DeltaWriter) : Prop where
  valid : w.table.Valid w.cache.sizes.maxMode
  index : w.index = .ofTable w.table w.cache.sizes.maxMode

/-- At the place stands the opcode of the last edit, and of that edit alone. -/
def EndsSingle (w : DeltaWriter) (cache : AddressCache) (source out : Array UInt8) (place : Nat) :
    Prop :=
  ∃ out₀ bytes part cache₀ opcode slot e,
    Makes w.table w.interleaved w.cache.sizes source out₀ bytes cache₀ ∧
      (w.table.entry opcode).single? = some slot ∧
      slot.Carries w.interleaved cache₀ (source.size + out₀.size) e part cache ∧
      out = e.replay source out₀ ∧ w.written = bytes ++ (.code [opcode] ++ part) ∧
      place = bytes.instructions.length

/-- The bytes of the open window make `out` from `source`, and bring a reader's cache to `cache`. -/
structure HoldsWith (w : DeltaWriter) (cache : AddressCache) (source out : Array UInt8) : Prop where
  makes : Makes w.table w.interleaved w.cache.sizes source out w.written cache
  targetLength : w.targetLength = out.size
  field : w.targetLength ≤ maxField
  segment : w.segment.length = source.size
  last : ∀ place, w.lastOpcode = some place → w.EndsSingle cache source out place

/-- The bytes of the open window make `out` from `source`, and the writer's cache is where a reader's
will be. -/
def Holds (w : DeltaWriter) (source out : Array UInt8) : Prop :=
  w.HoldsWith w.cache source out

theorem written_replace {bytes part : SectionBytes} {last : UInt8}
    (h : w.written = bytes ++ (.code [last] ++ part)) (opcode : UInt8) :
    written { w with instructions := w.instructions.setIfInBounds bytes.instructions.length opcode } =
      bytes ++ (.code [opcode] ++ part) := by
  have data := congrArg SectionBytes.data h
  have instructions := congrArg SectionBytes.instructions h
  have addresses := congrArg SectionBytes.addresses h
  refine SectionBytes.ext data ?_ addresses
  simp only [written, SectionBytes.instructions_append, SectionBytes.code] at instructions ⊢
  rw [Array.toList_setIfInBounds, instructions]
  simp

theorem written_putOpcode_pair {choice : OpcodeChoice} {bytes part : SectionBytes} {last : UInt8}
    (placed : choice.place = some bytes.instructions.length)
    (h : w.written = bytes ++ (.code [last] ++ part)) : (w.putOpcode choice size).written =
      bytes ++ (.code [choice.opcode] ++
        (part ++ .code (if choice.explicitSize then Varint.encode size else []))) := by
  have replaced := written_append
    { w with instructions := w.instructions.setIfInBounds bytes.instructions.length choice.opcode }
    (.code (if choice.explicitSize then Varint.encode size else []))
  rw [written_replace h, SectionBytes.append_assoc, SectionBytes.append_assoc] at replaced
  rw [← replaced]
  simp [putOpcode, placed, append, SectionBytes.code, written]

theorem written_putOpcode_fresh {choice : OpcodeChoice} (placed : choice.place = none) :
    (w.putOpcode choice size).written = w.written ++ (.code [choice.opcode] ++
      .code (if choice.explicitSize then Varint.encode size else [])) := by
  have added := w.written_append
    (.code [choice.opcode] ++ .code (if choice.explicitSize then Varint.encode size else []))
  rw [← added]
  simp [putOpcode, placed, append, SectionBytes.code, written]

theorem putOpcode_eq (w : DeltaWriter) (choice : OpcodeChoice) (size : Nat) :
    ∃ instructions lastOpcode, (choice.place.isSome = true → lastOpcode = none) ∧
      (choice.place = none → lastOpcode = some w.instructions.size) ∧
      w.putOpcode choice size = { w with instructions := instructions, lastOpcode := lastOpcode } := by
  cases placed : choice.place with
  | none =>
    simp only [putOpcode, placed]
    exact ⟨_, some w.instructions.size, (fun h => by cases h), fun _ => rfl, rfl⟩
  | some place =>
    simp only [putOpcode, placed]
    exact ⟨_, none, fun _ => rfl, (fun h => by cases h), rfl⟩

/-- What stays the same while edits are written. -/
structure Keeps (w w' : DeltaWriter) : Prop where
  interleaved : w'.interleaved = w.interleaved
  table : w'.table = w.table
  ownTable : w'.ownTable = w.ownTable
  index : w'.index = w.index
  sizes : w'.cache.sizes = w.cache.sizes
  segment : w'.segment = w.segment
  state : w'.state = w.state
  checksum : w'.checksum = w.checksum

theorem maxMode_le (sizes : CacheSizes) : sizes.maxMode ≤ 255 := by
  have fits := sizes.fits
  simp only [CacheSizes.maxMode]
  omega

theorem write_ok {supplied : SectionBytes} {finish : DeltaWriter → DeltaWriter}
    (finishes : ∀ v : DeltaWriter, v.interleaved = w.interleaved → finish v = v.append supplied)
    (h : w.write instruction size mode finish = (.ok (), w')) :
    ∃ choice, w.choose instruction size mode = some choice ∧ w.targetLength + size ≤ maxField ∧
      w' = { (w.putOpcode choice size).append supplied with
        targetLength := w.targetLength + size } := by
  simp only [write] at h
  split at h
  · next choice chosen =>
    obtain ⟨instructions, lastOpcode, -, -, put⟩ := w.putOpcode_eq choice size
    have finished := finishes (w.putOpcode choice size) (by rw [put])
    have length : ((w.putOpcode choice size).append supplied).targetLength = w.targetLength := by
      rw [put]
      rfl
    rw [finished, grow, length] at h
    split at h
    · cases h
    · next field =>
      cases h
      exact ⟨choice, chosen, Nat.not_lt.1 field, rfl⟩
  · cases h

/-- An edit that has been written adds its target bytes to what the window makes. -/
theorem holds_write {cache : AddressCache} {source out : Array UInt8} {e : Edit} {i : Instruction}
    {supplied : SectionBytes} {finish : DeltaWriter → DeltaWriter} (usable : w.Usable)
    (holds : w.HoldsWith cache source out)
    (query : Askable w.cache.sizes.maxMode instruction mode)
    (amounts : ∀ fixed, Instruction.ofSlot? ⟨instruction, fixed, .ofNat mode⟩ e.size = some i)
    (supplies : Supplies w.interleaved cache (source.size + out.size) e i supplied w.cache)
    (finishes : ∀ v : DeltaWriter, v.interleaved = w.interleaved → finish v = v.append supplied)
    (positive : 0 < e.size) (h : w.write instruction e.size mode finish = (.ok (), w')) :
    w'.Holds source (e.replay source out) ∧ w.Keeps w' := by
  obtain ⟨choice, chosen, field, rfl⟩ := write_ok finishes h
  have length : w.targetLength + e.size = (e.replay source out).size := by
    rw [Edit.size_replay, holds.targetLength]
  obtain ⟨fixed, fits, pair | fresh⟩ := choose_cases chosen
  · obtain ⟨place, last, placed, open_, there, found⟩ := pair
    obtain ⟨out₀, bytes, part, cache₀, opcode, slot, e₀, makes, single, carries, rfl, written,
      rfl⟩ := holds.last place open_
    -- The opcode found at the place is the one that stands for the last edit.
    have same : last = opcode := by
      have instructions := congrArg SectionBytes.instructions written
      simp only [DeltaWriter.written, SectionBytes.instructions_append, SectionBytes.code]
        at instructions
      rw [← Array.getElem?_toList, instructions] at there
      simpa using there.symm
    subst same
    have entry := OpcodeIndex.entry_of_second? usable.valid query single (usable.index ▸ found)
    have size := reads_slot query.isNoop (amounts fixed) positive (by omega) fits
    have makes' := makes.double entry carries ⟨_, i, supplied, rfl, positive, size, supplies⟩
    have bytes' := written_append (w.putOpcode choice e.size) supplied
    rw [written_putOpcode_pair placed written] at bytes'
    simp only [SectionBytes.append_assoc] at bytes'
    rw [← bytes'] at makes'
    obtain ⟨instructions, lastOpcode, closed, -, put⟩ := w.putOpcode_eq choice e.size
    obtain rfl := closed (by rw [placed]; rfl)
    rw [put] at makes' ⊢
    exact ⟨⟨makes', length, field, holds.segment, fun _ h => by cases h⟩,
      ⟨rfl, rfl, rfl, rfl, rfl, rfl, rfl, rfl⟩⟩
  · obtain ⟨placed, found⟩ := fresh
    have single := OpcodeIndex.single?_of_first? usable.valid query (usable.index ▸ found)
    have size := reads_slot query.isNoop (amounts fixed) positive (by omega) fits
    have carries : Slot.Carries ⟨instruction, fixed, .ofNat mode⟩ w.interleaved cache
      (source.size + out.size) e _ w.cache := ⟨_, i, supplied, rfl, positive, size, supplies⟩
    have makes' := holds.makes.single single carries
    have bytes' := written_append (w.putOpcode choice e.size) supplied
    rw [written_putOpcode_fresh placed] at bytes'
    simp only [SectionBytes.append_assoc] at bytes'
    rw [← bytes'] at makes'
    obtain ⟨instructions, lastOpcode, -, opened, put⟩ := w.putOpcode_eq choice e.size
    obtain rfl := opened placed
    rw [put] at makes' bytes' ⊢
    refine ⟨⟨makes', length, field, holds.segment, ?_⟩, ⟨rfl, rfl, rfl, rfl, rfl, rfl, rfl, rfl⟩⟩
    rintro place ⟨⟩
    exact ⟨out, w.written, _, cache, choice.opcode, _, e, holds.makes, single, carries, rfl, bytes',
      Array.length_toList.symm⟩

theorem Keeps.refl (w : DeltaWriter) : w.Keeps w :=
  ⟨rfl, rfl, rfl, rfl, rfl, rfl, rfl, rfl⟩

theorem Keeps.trans {a b c : DeltaWriter} (hab : a.Keeps b) (hbc : b.Keeps c) : a.Keeps c :=
  ⟨hbc.interleaved.trans hab.interleaved, hbc.table.trans hab.table,
    hbc.ownTable.trans hab.ownTable, hbc.index.trans hab.index, hbc.sizes.trans hab.sizes,
    hbc.segment.trans hab.segment, hbc.state.trans hab.state, hbc.checksum.trans hab.checksum⟩

theorem Keeps.usable (h : w.Keeps w') (usable : w.Usable) : w'.Usable := by
  obtain ⟨valid, index⟩ := usable
  exact ⟨by rw [h.table, h.sizes]; exact valid, by rw [h.index, h.table, h.sizes]; exact index⟩

theorem toBytes_ne_nil (code : AddressCode) : code.toBytes ≠ [] := by
  cases code with
  | byte value => exact List.cons_ne_nil _ _
  | integer value =>
    have length := Varint.length_encode value
    have positive := Varint.encodedLength_pos value
    intro empty
    rw [AddressCode.toBytes] at empty
    rw [empty, List.length_nil] at length
    omega

theorem holds_writeAdd {source out : Array UInt8} {bytes : List UInt8} (usable : w.Usable)
    (holds : w.Holds source out) (positive : 0 < bytes.length)
    (h : w.writeAdd bytes = (.ok (), w')) :
    w'.Holds source ((Edit.add bytes).replay source out) ∧ w.Keeps w' := by
  simp only [writeAdd] at h
  split at h
  · cases h
  · refine @holds_write w w' InstructionType.add 0 w.cache source out (.add bytes) _ _ _ usable holds
      .add (fun fixed => ?_) (.add bytes) (fun v same => ?_) positive h
    · rfl
    · rw [putData_eq, same]

theorem holds_writeRun {source out : Array UInt8} {size : Nat} {byte : UInt8} (usable : w.Usable)
    (holds : w.Holds source out) (positive : 0 < size)
    (h : w.write InstructionType.run size 0 (fun w => w.putData [byte]) = (.ok (), w')) :
    w'.Holds source ((Edit.run size byte).replay source out) ∧ w.Keeps w' := by
  refine @holds_write w w' InstructionType.run 0 w.cache source out (.run size byte) _ _ _ usable
    holds .run (fun fixed => ?_) (.run size byte) (fun v same => ?_) positive h
  · rfl
  · rw [putData_eq, same]

theorem holds_writeCopy {source out : Array UInt8} {address size : Nat} (usable : w.Usable)
    (holds : w.Holds source out) (positive : 0 < size)
    (h : w.writeCopy address size = (.ok (), w')) :
    w'.Holds source ((Edit.copy address size).replay source out) ∧ w.Keeps w' := by
  simp only [writeCopy] at h
  split at h
  · cases h
  · next field =>
    split at h
    · cases h
    · next before =>
      have here : w.segment.length + w.targetLength = source.size + out.size := by
        rw [holds.segment, holds.targetLength]
      rw [here] at h before
      have recorded := AddressCache.sizes_encode w.cache address (source.size + out.size)
      cases encoded : w.cache.encode address (source.size + out.size) with
      | mk mode rest =>
        obtain ⟨code, cache'⟩ := rest
        rw [encoded] at h recorded
        simp only at h recorded
        obtain ⟨inside, reads⟩ := AddressCache.reads_encode usable.valid.resolvable
          (Nat.not_le.1 before) (Nat.not_lt.1 field) encoded
        subst recorded
        have small := AddressMode.number_le inside
        have bytes := maxMode_le w.cache.sizes
        have byte : (UInt8.ofNat (mode.number w.cache.sizes)).toNat = mode.number w.cache.sizes := by
          rw [UInt8.toNat_ofNat', Nat.mod_eq_of_lt (by omega)]
        have recorded : w.Keeps { w with cache := w.cache.record address } :=
          ⟨rfl, rfl, rfl, rfl, rfl, rfl, rfl, rfl⟩
        -- The address is recorded before the opcode is chosen, while the reader is still behind.
        obtain ⟨holds', keeps⟩ := @holds_write { w with cache := w.cache.record address } w'
          InstructionType.copy (mode.number w.cache.sizes) w.cache source out (.copy address size)
          (.copy size (mode.number w.cache.sizes)) (.address w.interleaved code.toBytes)
          (fun w => w.putAddress code.toBytes) (recorded.usable usable)
          ⟨holds.makes, holds.targetLength, holds.field, holds.segment, holds.last⟩ (.copy small)
          (fun fixed => by
            simp only [Instruction.ofSlot?, byte]
            rfl)
          (.copy size (Nat.not_le.1 before) (toBytes_ne_nil code) reads)
          (fun v same => by rw [putAddress_eq, same]) positive h
        exact ⟨holds', recorded.trans keeps⟩

theorem holds_edit {source out : Array UInt8} {e : Edit} (usable : w.Usable)
    (holds : w.Holds source out) (h : w.edit e = (.ok (), w')) :
    w'.Holds source (e.replay source out) ∧ w.Keeps w' := by
  simp only [edit, inWindow] at h
  split at h
  · split at h
    · next empty =>
      cases h
      rw [Edit.replay_of_size_zero empty]
      exact ⟨holds, .refl _⟩
    · next nonempty =>
      have positive : 0 < e.size := Nat.pos_of_ne_zero nonempty
      cases e with
      | add bytes => exact holds_writeAdd usable holds positive h
      | copy address size => exact holds_writeCopy usable holds positive h
      | run size byte => exact holds_writeRun usable holds positive h
  · cases h
  · cases h

theorem holds_edits {source out : Array UInt8} {es : List Edit} (usable : w.Usable)
    (holds : w.Holds source out) (h : w.edits es = (.ok (), w')) :
    w'.Holds source (es.foldl (Edit.replay source) out) ∧ w.Keeps w' := by
  induction es generalizing w out with
  | nil =>
    cases h
    exact ⟨holds, .refl _⟩
  | cons e rest ih =>
    simp only [edits] at h
    split at h
    · next first =>
      obtain ⟨holds', keeps⟩ := holds_edit usable holds first
      obtain ⟨holds'', keeps'⟩ := ih (keeps.usable usable) holds' h
      exact ⟨holds'', keeps.trans keeps'⟩
    · next refused => exact absurd h (fun accepted => refused _ accepted)

end DeltaWriter

end DeltaCoding
