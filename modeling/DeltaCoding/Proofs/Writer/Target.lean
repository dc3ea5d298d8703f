import DeltaCoding.Proofs.Writer.Acceptance

/-!
# Windows for a target

Edits that cover a target make a window of it: none of the calls is refused, and decoders with the
writer's code table and caches read the target back (`DeltaWriter.accepts_target`). For targets of up
to 64 MiB all lengths of the window fit their fields.
-/

namespace DeltaCoding

/-! ## Decoders behind a writer -/

/-- The writer writes windows of the same kind as before. -/
structure DeltaWriter.SameFormat (w w' : DeltaWriter) : Prop where
  interleaved : w'.interleaved = w.interleaved
  table : w'.table = w.table
  sizes : w'.cache.sizes = w.cache.sizes

namespace WindowDecoder

variable {d e : WindowDecoder} {w w' : DeltaWriter} {checked : Bool}

/-- The decoder stands in front of windows of the writer, which have checksums if `checked`. -/
structure Follows (d : WindowDecoder) (w : DeltaWriter) (checked : Bool) : Prop where
  phase : d.phase = .header
  table : d.reader.table = w.table
  sizes : d.cache.sizes = w.cache.sizes
  extensions : w.interleaved = true ∨ checked = true → d.version = .sdch

theorem Follows.next (follows : d.Follows w checked) (same : d.SameStart e)
    (format : w.SameFormat w') : e.Follows w' checked := by
  obtain ⟨⟨-, phase⟩, version, table, sizes⟩ := same
  refine ⟨phase, ?_, ?_, ?_⟩
  · rw [← table, follows.table, format.table]
  · rw [← sizes, follows.sizes, format.sizes]
  · rw [format.interleaved, ← version]
    exact follows.extensions

/-- Behind `history`, the decoder reads the bytes as a window for `target`. -/
def Reads (d : WindowDecoder) (dictionary history : Array UInt8) (bytes : List UInt8)
    (target : Array UInt8) : Prop :=
  ∀ config : DecoderConfig, config.allowTarget = true →
    config.checkLength history.size target.size = .ok () → ∀ (offset : Nat) (rest : List UInt8),
      ∃ d', d.decode ⟨dictionary, config, history.size⟩ ⟨offset, bytes ++ rest⟩ history =
          ⟨.ok (.complete history.size (history.size + target.size)), d',
            ⟨offset + bytes.length, rest⟩, history ++ target⟩ ∧ d.SameStart d'

end WindowDecoder

/-! ## Openings that are accepted -/

namespace Opening

variable {opening : Opening} {w : DeltaWriter}

theorem call_dictionary (w : DeltaWriter) (size : Nat) :
    call (.dictionary size) w = w.openWindow size :=
  rfl

/-- The place of the source segment fits its fields. -/
def Addressable : Opening → Prop
  | .dictionary size => size ≤ maxField
  | .target position length => position ≤ maxField ∧ length ≤ maxField

theorem call_accepted (fields : opening.Addressable) (idle : w.state = .idle) :
    ∃ w', opening.call w = (.ok (), w') := by
  cases opening with
  | dictionary size =>
    have length : (segment (.dictionary size)).length ≤ maxField := by
      simp only [segment]
      split
      · exact fields
      · exact Nat.zero_le _
    simp only [segment] at length
    simp only [call, DeltaWriter.openWindow, DeltaWriter.openSegment, idle]
    rw [if_neg (Nat.not_lt.2 length)]
    exact ⟨_, rfl⟩
  | target position size =>
    have length : (segment (.target position size)).length ≤ maxField := by
      simp only [segment]
      split
      · exact fields.2
      · exact Nat.zero_le _
    simp only [segment] at length
    simp only [call, DeltaWriter.openTargetWindow, DeltaWriter.openSegment, idle]
    rw [if_neg (Nat.not_lt.2 fields.1), if_neg (Nat.not_lt.2 length)]
    exact ⟨_, rfl⟩

end Opening

namespace DeltaWriter

variable {w w' : DeltaWriter} {opening : Opening} {es : List Edit}
  {dictionary history target : Array UInt8}

theorem Between.idle (h : w.Between) : w.state = .idle := by
  cases h with
  | standard interleaved => rfl
  | withTable made =>
    simp only [DeltaWriter.withTable] at made
    split at made
    · cases made
    · split at made
      · cases made
      · cases made
        rfl
  | window before opened written checked closed =>
    -- A window that is closed leaves the writer as it was before it was opened.
    obtain ⟨-, rfl⟩ := closeWindow_ok closed
    rfl

/-! ## Lengths -/

theorem checkLength_accepts {field : BoundedField} {length : Nat} (h : length ≤ maxField) :
    checkLength field length = .ok length := by
  rw [checkLength, if_neg (Nat.not_lt.2 h)]

/-- The header that describes what the window holds so far. -/
def header (w : DeltaWriter) : WindowHeader where
  segment := w.segment
  targetLength := w.targetLength
  sections :=
    { data := w.data.size
      instructions := w.instructions.size
      addresses := w.addresses.size
      checksum := w.checksum }

theorem total_header (w : DeltaWriter) : w.header.sections.total = w.written.count := by
  simp only [header, SectionLengths.total, written, SectionBytes.count, Array.length_toList]

theorem windowHeader_fits (data : w.data.size ≤ maxField)
    (instructions : w.instructions.size ≤ maxField) (addresses : w.addresses.size ≤ maxField) :
    w.windowHeader = .ok w.header := by
  simp only [windowHeader]
  rw [checkLength_accepts data, checkLength_accepts instructions, checkLength_accepts addresses]
  rfl

/-- All fields behind the length of the delta encoding take at most 26 bytes. -/
theorem windowHeader_accepted (count : w.written.count + 26 ≤ maxField)
    (targetLength : w.targetLength ≤ maxField) (checksum : ∀ n ∈ w.checksum, n ≤ Varint.maxUInt32) :
    ∃ header, w.windowHeader = .ok header ∧ header.deltaLength ≤ maxField := by
  have sections : w.data.size + w.instructions.size + w.addresses.size = w.written.count :=
    w.total_header
  have checksumField : (w.checksum.map Varint.encodedLength).getD 0 ≤ 5 := by
    cases present : w.checksum with
    | none => exact Nat.zero_le _
    | some n =>
      exact Varint.encodedLength_le (checksum n present)
  have data := Varint.encodedLength_le_int32 (show w.data.size ≤ maxField by omega)
  have instructions := Varint.encodedLength_le_int32 (show w.instructions.size ≤ maxField by omega)
  have addresses := Varint.encodedLength_le_int32 (show w.addresses.size ≤ maxField by omega)
  have length := Varint.encodedLength_le_int32 targetLength
  refine ⟨_, windowHeader_fits (by omega) (by omega) (by omega), ?_⟩
  simp only [WindowHeader.deltaLength, SectionLengths.total, DeltaWriter.header]
  omega

theorem count_call {w₁ : DeltaWriter} (h : opening.call w = (.ok (), w₁)) :
    w₁.written.count = 0 := by
  obtain ⟨-, -, rfl⟩ := Opening.call_ok h
  rfl

/-! ## Windows -/

theorem closeWindow_accepted (holds : w.Holds (opening.source dictionary history) target)
    (writing : w.state = .writing) (segment : w.segment = opening.segment)
    (fieldSegment : opening.segment.Fields) (within : opening.Within dictionary history)
    (nonempty : target ≠ #[]) (count : w.written.count + 26 ≤ maxField)
    (checksum : ∀ n ∈ w.checksum, n = (Checksum.adler32 target.toList).toNat) :
    ∃ bytes, w.closeWindow = (.ok bytes, { w with state := .idle }) ∧ bytes ≠ [] ∧
      ∀ d : WindowDecoder, d.Follows w w.checksum.isSome →
        d.Reads dictionary history bytes target := by
  obtain ⟨header, described, short⟩ := windowHeader_accepted count holds.field fun n present => by
    rw [checksum n present]
    exact Varint.toNat_le_maxUInt32 _
  have instructions : w.instructions.isEmpty = false := by
    rw [← Array.isEmpty_toList, List.isEmpty_eq_false_iff]
    exact holds.makes.instructions_ne nonempty
  have handedOut : w.windowBytes = .ok (header.toBytes ++
      (w.data.toList ++ (w.instructions.toList ++ w.addresses.toList))) := by
    simp only [windowBytes, instructions, described]
    rfl
  have bytes_ne : header.toBytes ++
      (w.data.toList ++ (w.instructions.toList ++ w.addresses.toList)) ≠ [] := (fun h => by cases h)
  refine ⟨_, by simp only [closeWindow, writing, handedOut], bytes_ne, ?_⟩
  intro d follows config allowed limits offset rest
  refine decode_windowBytes holds segment fieldSegment within checksum handedOut bytes_ne ?_
    follows.phase follows.table follows.sizes follows.extensions allowed limits offset rest
  intro header' described'
  cases described.symm.trans described'
  exact short

/-- The largest target window that decoders accept by default. -/
def maxTarget : Nat := 64 * 1024 * 1024

/-- The calls that make one window for a target. -/
def writeTarget (w : DeltaWriter) (opening : Opening) (es : List Edit) (checked : Bool)
    (target : Array UInt8) : Except EncodeError (List UInt8) × DeltaWriter :=
  match opening.call w with
  | (.error error, w) => (.error error, w)
  | (.ok (), w) =>
    match w.edits es with
    | (.error error, w) => (.error error, w)
    | (.ok (), w) =>
      (if checked then w.setChecksum (Checksum.adler32 target.toList).toNat else w).closeWindow

theorem writeTarget_ok {checked : Bool} {bytes : List UInt8} :
    w.writeTarget opening es checked target = (.ok bytes, w') ↔
      ∃ w₁ w₂, opening.call w = (.ok (), w₁) ∧ w₁.edits es = (.ok (), w₂) ∧
        (if checked then w₂.setChecksum (Checksum.adler32 target.toList).toNat
          else w₂).closeWindow = (.ok bytes, w') := by
  constructor
  · intro h
    simp only [writeTarget] at h
    split at h
    · cases h
    · next w₁ opened =>
      split at h
      · cases h
      · next w₂ written => exact ⟨w₁, w₂, opened, written, h⟩
  · rintro ⟨w₁, w₂, opened, written, closed⟩
    simp only [writeTarget, opened, written, closed]

/-- An open window holds a target, with its checksum if `checked`, and can be closed. The writer that
opened the window is `w`. -/
structure Ready (w ready : DeltaWriter) (opening : Opening) (dictionary history target : Array UInt8)
    (checked : Bool) : Prop where
  holds : ready.Holds (opening.source dictionary history) target
  state : ready.state = .writing
  format : w.SameFormat ready
  segment : ready.segment = opening.segment
  fieldSegment : opening.segment.Fields
  count : ready.written.count + 26 ≤ maxField
  checksum : ready.checksum =
    if checked then some (Checksum.adler32 target.toList).toNat else none

theorem Ready.eq_checksum {ready : DeltaWriter} {checked : Bool}
    (h : w.Ready ready opening dictionary history target checked) :
    ∀ n ∈ ready.checksum, n = (Checksum.adler32 target.toList).toNat := by
  intro n present
  rw [h.checksum] at present
  cases checked with
  | false => cases present
  | true => exact (Option.some.inj present).symm

theorem Ready.extensions {ready : DeltaWriter} {checked : Bool}
    (h : w.Ready ready opening dictionary history target checked) :
    ready.interleaved = true ∨ ready.checksum.isSome = true →
      w.interleaved = true ∨ checked = true := by
  rw [h.format.interleaved, h.checksum]
  rintro (interleaved | present)
  · exact .inl interleaved
  · cases checked with
    | false => cases present
    | true => exact .inr rfl

theorem ready_target {w₁ w₂ : DeltaWriter} (usable : w.Usable)
    (within : opening.Within dictionary history) (opened : opening.call w = (.ok (), w₁))
    (covers : Edit.Covers (opening.source dictionary history) target 0 es target.size)
    (written : w₁.edits es = (.ok (), w₂)) (small : target.size ≤ maxTarget) (checked : Bool) :
    w.Ready (if checked then w₂.setChecksum (Checksum.adler32 target.toList).toNat else w₂) opening
      dictionary history target checked := by
  have holds := holds_call (Opening.length_segment within) opened
  obtain ⟨made, keeps⟩ := holds_edits (usable_call usable opened) holds written
  have made : w₂.Holds (opening.source dictionary history) target := by
    rw [← Edit.replayAll_of_covers covers]
    exact made
  have bound : w₂.written.count + 26 ≤ maxField := by
    have frugal := frugal_edits written
    rw [Frugal, count_call opened, holds.targetLength, made.targetLength] at frugal
    simp only [maxTarget] at small
    simp only [maxField]
    omega
  obtain ⟨-, fieldSegment, rfl⟩ := Opening.call_ok opened
  cases checked with
  | false =>
    exact ⟨made, keeps.state, ⟨keeps.interleaved, keeps.table, keeps.sizes⟩, keeps.segment,
      fieldSegment, bound, keeps.checksum⟩
  | true =>
    exact ⟨made.setChecksum _, keeps.state, ⟨keeps.interleaved, keeps.table, keeps.sizes⟩,
      keeps.segment, fieldSegment, bound, rfl⟩

theorem closes_target {w₁ w₂ : DeltaWriter} (usable : w.Usable)
    (within : opening.Within dictionary history) (opened : opening.call w = (.ok (), w₁))
    (covers : Edit.Covers (opening.source dictionary history) target 0 es target.size)
    (written : w₁.edits es = (.ok (), w₂)) (small : target.size ≤ maxTarget)
    (nonempty : target ≠ #[]) (checked : Bool) :
    ∃ bytes w', w.writeTarget opening es checked target = (.ok bytes, w') ∧ bytes ≠ [] ∧
      w.SameFormat w' ∧
      ∀ d : WindowDecoder, d.Follows w checked → d.Reads dictionary history bytes target := by
  have ready := ready_target usable within opened covers written small checked
  obtain ⟨bytes, closed, bytes_ne, reads⟩ := closeWindow_accepted ready.holds ready.state
    ready.segment ready.fieldSegment within nonempty ready.count ready.eq_checksum
  refine ⟨bytes, _, writeTarget_ok.2 ⟨_, w₂, opened, written, closed⟩, bytes_ne,
    ⟨ready.format.interleaved, ready.format.table, ready.format.sizes⟩, ?_⟩
  intro d follows
  exact reads d ⟨follows.phase, follows.table.trans ready.format.table.symm,
    follows.sizes.trans ready.format.sizes.symm, fun needs => follows.extensions (ready.extensions needs)⟩

/-- Edits that cover a target make a window that decoders read back. -/
theorem accepts_target (between : w.Between) (fields : opening.Addressable)
    (within : opening.Within dictionary history)
    (covers : Edit.Covers (opening.source dictionary history) target 0 es target.size)
    (room : (opening.source dictionary history).size + target.size ≤ maxField)
    (small : target.size ≤ maxTarget) (nonempty : target ≠ #[]) (checked : Bool) :
    ∃ bytes w', w.writeTarget opening es checked target = (.ok bytes, w') ∧ bytes ≠ [] ∧
      w'.Between ∧ w.SameFormat w' ∧
      ∀ d : WindowDecoder, d.Follows w checked → d.Reads dictionary history bytes target := by
  obtain ⟨w₁, opened⟩ := Opening.call_accepted fields between.idle
  have holds := holds_call (Opening.length_segment within) opened
  have after := Opening.call_ok opened
  have start : target.extract 0 0 = #[] := Array.extract_eq_empty_of_le (Nat.min_le_left _ _)
  obtain ⟨w₂, written⟩ := accepts_edits (usable_call between.usable opened)
    (by rw [start]; exact holds) (by rw [after.2.2]; rfl) covers (Nat.zero_le _) room
  obtain ⟨bytes, w', wrote, bytes_ne, format, reads⟩ := closes_target between.usable within opened
    covers written small nonempty checked
  refine ⟨bytes, w', wrote, bytes_ne, ?_, format, reads⟩
  obtain ⟨w₁, w₂, opened, written, closed⟩ := writeTarget_ok.1 wrote
  refine .window between opened written ?_ closed
  split
  · exact .inr ⟨_, rfl⟩
  · exact .inl rfl

end DeltaWriter

end DeltaCoding
