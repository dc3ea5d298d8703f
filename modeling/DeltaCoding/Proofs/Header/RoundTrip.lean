import DeltaCoding.Proofs.Header.Reading

namespace DeltaCoding

theorem WindowIndicator.ofByte_toByte (indicator : WindowIndicator) :
    ofByte indicator.toByte = indicator := by
  obtain ⟨source, target, checksum⟩ := indicator
  cases source <;> cases target <;> cases checksum <;> decide

namespace HeaderStep

variable {s : HeaderState} {c : Cursor}

theorem field_run {α : Type} {parser : Parser α} {bytes : List UInt8} {a : α}
    (reads : parser.Reads bytes a) (takes : s.cursor.Takes bytes c) :
    field parser s = (.ok a, { s with cursor := c }) := by
  simp only [field, ExceptT.mk, reads _ _ takes]

theorem segmentRange_run {bound position length : Nat} (inside : position + length ≤ bound)
    (fieldPosition : position ≤ Varint.maxInt32) (fieldLength : length ≤ Varint.maxInt32)
    (takes : s.cursor.Takes (Varint.encode length ++ Varint.encode position) c) :
    segmentRange bound s = (.ok (position, length), { s with cursor := c }) := by
  obtain ⟨c₁, first, second⟩ := takes.split
  rw [segmentRange, bind_ok (field_run (Varint.reads_encode_int32 fieldLength) first),
    if_neg (by omega)]
  dsimp only
  rw [bind_ok (field_run (Varint.reads_encode_int32 fieldPosition) second), if_neg (by omega)]
  rfl

theorem windowLengths_run {deltaLength targetLength : Nat} (fieldDelta : deltaLength ≤ Varint.maxInt32)
    (fieldTarget : targetLength ≤ Varint.maxInt32) {c₁ : Cursor}
    (first : s.cursor.Takes (Varint.encode deltaLength) c₁)
    (second : c₁.Takes (Varint.encode targetLength) c) :
    windowLengths s = (.ok targetLength, ⟨c, deltaLength, c₁.offset⟩) := by
  rw [windowLengths, bind_ok (field_run (Varint.reads_encode_int32 fieldDelta) first)]
  exact field_run (Varint.reads_encode_int32 fieldTarget) second

theorem deltaIndicator_run (takes : s.cursor.Takes [0] c) :
    deltaIndicator s = (.ok (), { s with cursor := c }) := by
  rw [deltaIndicator, bind_ok (field_run (Parser.reads_byte 0) takes)]
  rfl

theorem checksum?_run {checksum : Option Nat} (bound : ∀ n ∈ checksum, n ≤ Varint.maxUInt32)
    (takes : s.cursor.Takes (WindowHeader.checksumBytes checksum) c) :
    checksum? checksum.isSome s = (.ok checksum, { s with cursor := c }) := by
  cases checksum with
  | none =>
    obtain rfl := (Cursor.Takes.refl s.cursor).unique takes
    rfl
  | some n =>
    have run := field_run (Varint.reads_encode_uint32 (bound n rfl)) takes
    simp only [checksum?, Option.isSome_some, if_true, Functor.map, ExceptT.map, ExceptT.mk,
      Bind.bind, StateT.bind, run]
    rfl

end HeaderStep

namespace WindowHeader

variable {header : WindowHeader} {c : Cursor}

/-- Every figure of the header fits its field. -/
structure Fields (header : WindowHeader) : Prop where
  segment : header.segment.Fields
  targetLength : header.targetLength ≤ Varint.maxInt32
  deltaLength : header.deltaLength ≤ Varint.maxInt32
  checksum : ∀ n ∈ header.sections.checksum, n ≤ Varint.maxUInt32

theorem indicatorAndSegment_run {dictionarySize decoded : Nat} {allowTarget : Bool}
    (inside : header.segment.Within dictionarySize decoded allowTarget)
    (fields : header.segment.Fields) {s : HeaderState}
    (takes : s.cursor.Takes (header.indicator.toByte :: segmentBytes header.segment) c) :
    HeaderStep.indicatorAndSegment dictionarySize decoded allowTarget s =
      (.ok (header.indicator, header.segment), { s with cursor := c }) := by
  obtain ⟨c₁, first, second⟩ := @Cursor.Takes.split _ _ [header.indicator.toByte] _ takes
  rw [HeaderStep.indicatorAndSegment,
    HeaderStep.bind_ok (HeaderStep.field_run (Parser.reads_byte _) first)]
  simp only [WindowIndicator.ofByte_toByte]
  cases segment : header.segment with
  | none =>
    rw [segment] at second
    rw [(Cursor.Takes.refl c₁).unique second]
    simp only [indicator, segment]
    rfl
  | dictionary position length =>
    simp only [segment, SourceSegment.Within, SourceSegment.Fields] at inside fields
    rw [segment] at second
    simp only [indicator, segment]
    rw [HeaderStep.bind_ok (HeaderStep.segmentRange_run inside fields.1 fields.2 second)]
    rfl
  | target position length =>
    simp only [segment, SourceSegment.Within, SourceSegment.Fields] at inside fields
    rw [segment] at second
    simp only [indicator, segment, inside.1, if_true]
    rw [HeaderStep.bind_ok (HeaderStep.segmentRange_run inside.2 fields.1 fields.2 second)]
    rfl

/-- The declared length covers the fields behind it and the sections. -/
theorem length_deltaFields (header : WindowHeader) :
    header.deltaFields.length + header.sections.total = header.deltaLength := by
  cases checksum : header.sections.checksum <;>
    simp [deltaFields, deltaLength, checksumBytes, checksum] <;> omega

theorem sectionLengths_run (fields : header.Fields) {s : HeaderState}
    (takes : s.cursor.Takes (Varint.encode header.sections.data ++
      (Varint.encode header.sections.instructions ++ (Varint.encode header.sections.addresses ++
        checksumBytes header.sections.checksum))) c)
    (started : s.deltaStart ≤ s.cursor.offset)
    (declared : c.offset - s.deltaStart + header.sections.total = s.deltaLength) :
    HeaderStep.sectionLengths header.sections.checksum.isSome s =
      (.ok header.sections, { s with cursor := c }) := by
  have total := length_deltaFields header
  have bound := fields.deltaLength
  simp only [SectionLengths.total] at total
  obtain ⟨c₁, data, takes⟩ := takes.split
  obtain ⟨c₂, instructions, takes⟩ := takes.split
  obtain ⟨c₃, addresses, checksum⟩ := takes.split
  have end_ : c.offset = s.cursor.offset + (Varint.encode header.sections.data).length +
      (Varint.encode header.sections.instructions).length +
      (Varint.encode header.sections.addresses).length +
      (checksumBytes header.sections.checksum).length := by
    rw [checksum.2, addresses.2, instructions.2, data.2]
  rw [HeaderStep.sectionLengths, HeaderStep.bind_ok (HeaderStep.field_run
      (Varint.reads_encode_int32 (by omega)) data),
    HeaderStep.bind_ok (HeaderStep.field_run (Varint.reads_encode_int32 (by omega)) instructions),
    HeaderStep.bind_ok (HeaderStep.field_run (Varint.reads_encode_int32 (by omega)) addresses),
    HeaderStep.bind_ok (HeaderStep.checksum?_run fields.checksum checksum)]
  have read : HeaderStep.lengthRead { s with cursor := c } =
      (.ok (c.offset - s.deltaStart), { s with cursor := c }) := by
    rw [HeaderStep.lengthRead_run]
    exact if_neg (by simp only; omega)
  rw [HeaderStep.bind_ok read, HeaderStep.bind_ok (show HeaderStep.declaredLength _ = _ from rfl)]
  simp only [declared, ne_eq, not_true, if_false]
  rfl

theorem parse_toBytes {context : Context} {check : Nat → Except FormatError Unit}
    (fits : header.Fits context check) (fields : header.Fields)
    (extensions : header.sections.checksum.isSome = true → context.version.hasExtensions = true)
    {c c' : Cursor} (takes : c.Takes header.toBytes c') :
    ∃ s, parse context check (.ofCursor c) = (.ok header, s) ∧ s.cursor = c' := by
  have bytes : header.toBytes = (header.indicator.toByte :: segmentBytes header.segment) ++
      (Varint.encode header.deltaLength ++ (Varint.encode header.targetLength ++ ([0] ++
        (Varint.encode header.sections.data ++ (Varint.encode header.sections.instructions ++
          (Varint.encode header.sections.addresses ++
            checksumBytes header.sections.checksum)))))) := by
    simp [toBytes, deltaFields]
  rw [bytes] at takes
  obtain ⟨c₁, segment, takes⟩ := takes.split
  obtain ⟨c₂, delta, takes⟩ := takes.split
  obtain ⟨c₃, target, takes⟩ := takes.split
  obtain ⟨c₄, zero, sections⟩ := takes.split
  have present : (context.version.hasExtensions && header.indicator.checksum) =
      header.sections.checksum.isSome := by
    have indicator : header.indicator.checksum = header.sections.checksum.isSome := by
      simp only [indicator]
      split <;> rfl
    rw [indicator]
    cases some : header.sections.checksum.isSome with
    | false => rw [Bool.and_false]
    | true => rw [extensions some]; rfl
  -- The declared length counts from behind itself, where the second cut is.
  have length := length_deltaFields header
  simp only [deltaFields, List.length_append, List.length_cons] at length
  have ends := sections.2
  simp only [List.length_append, zero.2, target.2, List.length_singleton] at ends
  rw [parse, HeaderStep.bind_ok (indicatorAndSegment_run fits.segment fields.segment segment)]
  simp only
  rw [HeaderStep.bind_ok
      (HeaderStep.windowLengths_run fields.deltaLength fields.targetLength delta target),
    HeaderStep.bind_ok (show HeaderStep.require (check header.targetLength) _ = (.ok (), _) by
      rw [fits.checked]; rfl),
    HeaderStep.bind_ok (HeaderStep.deltaIndicator_run zero), present,
    HeaderStep.bind_ok (sectionLengths_run fields sections ?_ ?_)]
  · exact ⟨_, rfl, rfl⟩
  · simp only [zero.2, target.2]
    omega
  · simp only
    omega

end WindowHeader

end DeltaCoding
