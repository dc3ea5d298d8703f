import DeltaCoding.Proofs.Window.RoundTrip
import DeltaCoding.Proofs.Writer.Edits

/-!
# Written windows are read back

A writer between windows can be used for another one (`DeltaWriter.Between`). Whatever edits a window
is made of, a decoder with the same code table and the same caches reads the window that is handed
out, and no more, and makes what the edits make.
-/

namespace DeltaCoding

/-- How a window is opened. -/
inductive Opening where
  /-- With the first bytes of the dictionary as its source segment. -/
  | dictionary (size : Nat)
  /-- With a part of the target of earlier windows as its source segment. -/
  | target (position length : Nat)

namespace Opening

variable {opening : Opening} {w w' : DeltaWriter} {dictionary history : Array UInt8}

/-- The call that opens the window. -/
def call (opening : Opening) (w : DeltaWriter) : DeltaWriter.Call :=
  match opening with
  | .dictionary size => w.openWindow size
  | .target position length => w.openTargetWindow position length

/-- The source segment as the header names it. -/
def segment : Opening → SourceSegment
  | .dictionary size => if size > 0 then .dictionary 0 size else .none
  | .target position length => if length > 0 then .target position length else .none

/-- The bytes of the source segment. -/
def source (opening : Opening) (dictionary history : Array UInt8) : Array UInt8 :=
  match opening with
  | .dictionary size => dictionary.extract 0 size
  | .target position length => history.extract position (position + length)

/-- The bytes of the source segment are there. -/
def Within (opening : Opening) (dictionary history : Array UInt8) : Prop :=
  match opening with
  | .dictionary size => size ≤ dictionary.size
  | .target position length => position + length ≤ history.size

theorem source_segment (opening : Opening) (dictionary history : Array UInt8) :
    AddressSpace.source ⟨dictionary, opening.segment, history.size⟩ history =
      opening.source dictionary history := by
  cases opening with
  | dictionary size =>
    simp only [AddressSpace.source, segment, source]
    by_cases positive : size > 0
    · simp only [if_pos positive, Nat.zero_add]
    · obtain rfl : size = 0 := by omega
      simp
  | target position length =>
    simp only [AddressSpace.source, segment, source]
    by_cases positive : length > 0
    · rw [if_pos positive]
    · obtain rfl : length = 0 := by omega
      rw [if_neg positive, Nat.add_zero, Array.extract_eq_empty_of_le (Nat.min_le_left _ _)]

theorem length_segment (within : opening.Within dictionary history) :
    opening.segment.length = (opening.source dictionary history).size := by
  cases opening with
  | dictionary size =>
    simp only [Within] at within
    simp only [segment, source, Array.size_extract]
    by_cases positive : size > 0
    · rw [if_pos positive, SourceSegment.length]
      omega
    · rw [if_neg positive, SourceSegment.length]
      omega
  | target position length =>
    simp only [Within] at within
    simp only [segment, source, Array.size_extract]
    by_cases positive : length > 0
    · rw [if_pos positive, SourceSegment.length]
      omega
    · rw [if_neg positive, SourceSegment.length]
      omega

theorem within_segment (within : opening.Within dictionary history) :
    opening.segment.Within dictionary.size history.size true := by
  cases opening with
  | dictionary size =>
    simp only [Within] at within
    simp only [segment]
    split
    · simpa [SourceSegment.Within] using within
    · exact trivial
  | target position length =>
    simp only [segment]
    split
    · exact ⟨rfl, within⟩
    · exact trivial

end Opening

/-- The writer with an open window that nothing has been written to. -/
def DeltaWriter.opened (w : DeltaWriter) (segment : SourceSegment) : DeltaWriter :=
  { w with
    state := .writing
    segment := segment
    targetLength := 0
    data := #[]
    instructions := #[]
    addresses := #[]
    lastOpcode := none
    checksum := none
    cache := w.cache.reset }

theorem DeltaWriter.openSegment_ok {w w' : DeltaWriter} {segment : SourceSegment}
    (h : w.openSegment segment = (.ok (), w')) :
    w.state = .idle ∧ segment.length ≤ maxField ∧ w' = w.opened segment := by
  simp only [openSegment] at h
  split at h
  · cases h
  · cases h
  · next idle =>
    split at h
    · cases h
    · next field =>
      cases h
      exact ⟨idle, Nat.not_lt.1 field, rfl⟩

namespace Opening

variable {opening : Opening} {w w' : DeltaWriter}

theorem call_ok (h : opening.call w = (.ok (), w')) :
    w.state = .idle ∧ opening.segment.Fields ∧ w' = w.opened opening.segment := by
  cases opening with
  | dictionary size =>
    obtain ⟨idle, field, after⟩ := DeltaWriter.openSegment_ok h
    refine ⟨idle, ?_, after⟩
    simp only [segment]
    split
    · next positive =>
      rw [if_pos positive] at field
      exact ⟨Nat.zero_le _, field⟩
    · exact trivial
  | target position length =>
    simp only [call, DeltaWriter.openTargetWindow] at h
    split at h
    · cases h
    · next place =>
      obtain ⟨idle, field, after⟩ := DeltaWriter.openSegment_ok h
      refine ⟨idle, ?_, after⟩
      simp only [segment]
      split
      · next positive =>
        rw [if_pos positive] at field
        exact ⟨Nat.not_lt.1 place, field⟩
      · exact trivial

end Opening

namespace DeltaWriter

variable {w w₁ w₂ w₃ w₄ : DeltaWriter} {opening : Opening} {es : List Edit} {bytes : List UInt8}

/-- The writer has written a number of windows and may open another. -/
inductive Between : DeltaWriter → Prop where
  | standard (interleaved : Bool) : Between (standard interleaved)
  | withTable {interleaved : Bool} {near same : Nat} {table : CodeTable} {w : DeltaWriter}
      (made : withTable interleaved near same table = .ok w) : Between w
  | window {w w₁ w₂ w₃ w₄ : DeltaWriter} {opening : Opening} {es : List Edit} {bytes : List UInt8}
      (before : Between w) (opened : opening.call w = (.ok (), w₁))
      (written : w₁.edits es = (.ok (), w₂)) (checked : w₃ = w₂ ∨ ∃ n, w₃ = w₂.setChecksum n)
      (closed : w₃.closeWindow = (.ok bytes, w₄)) : Between w₄

theorem usable_make {interleaved ownTable : Bool} {table : CodeTable} {sizes : CacheSizes}
    (valid : table.Valid sizes.maxMode) : (make interleaved ownTable table sizes).Usable :=
  ⟨valid, rfl⟩

theorem usable_withTable {interleaved : Bool} {near same : Nat} {table : CodeTable}
    (h : withTable interleaved near same table = .ok w) : w.Usable := by
  simp only [withTable] at h
  split at h
  · cases h
  · split at h
    · cases h
    · next valid =>
      cases h
      exact usable_make (CodeTable.valid_of_validate valid)

theorem Holds.setChecksum {source out : Array UInt8} (holds : w.Holds source out) (n : Nat) :
    (w.setChecksum n).Holds source out :=
  ⟨holds.makes, holds.targetLength, holds.field, holds.segment, holds.last⟩

/-- An open window with nothing in it. -/
theorem holds_call {source : Array UInt8} (length : opening.segment.length = source.size)
    (h : opening.call w = (.ok (), w₁)) : w₁.Holds source #[] := by
  obtain ⟨-, -, rfl⟩ := Opening.call_ok h
  exact ⟨.none, rfl, Nat.zero_le _, length, fun _ h => by cases h⟩

theorem usable_call (usable : w.Usable) (h : opening.call w = (.ok (), w₁)) : w₁.Usable := by
  obtain ⟨-, -, rfl⟩ := Opening.call_ok h
  exact ⟨usable.valid, usable.index⟩

theorem closeWindow_ok (h : w.closeWindow = (.ok bytes, w₁)) :
    w.windowBytes = .ok bytes ∧ w₁ = { w with state := .idle } := by
  simp only [closeWindow] at h
  split at h
  · obtain ⟨bytes, rfl⟩ := Prod.mk.inj h
    exact ⟨bytes, rfl⟩
  · cases h
  · cases h

theorem Between.usable (h : w.Between) : w.Usable := by
  induction h with
  | standard interleaved => exact usable_make CodeTable.valid_standard
  | withTable made => exact usable_withTable made
  | @window w w₁ w₂ w₃ w₄ opening es bytes before opened written checked closed ih =>
    have length : opening.segment.length = (Array.replicate opening.segment.length (0 : UInt8)).size :=
      Array.size_replicate.symm
    have keeps := (holds_edits (usable_call ih opened) (holds_call length opened) written).2
    obtain ⟨valid, index⟩ := keeps.usable (usable_call ih opened)
    obtain ⟨-, rfl⟩ := closeWindow_ok closed
    rcases checked with rfl | ⟨n, rfl⟩ <;> exact ⟨valid, index⟩

theorem checkLength_ok {field : BoundedField} {length n : Nat}
    (h : checkLength field length = .ok n) : n = length ∧ length ≤ maxField := by
  simp only [checkLength] at h
  split at h
  · cases h
  · next bound =>
    cases h
    exact ⟨rfl, Nat.not_lt.1 bound⟩

theorem windowHeader_ok {header : WindowHeader} (h : w.windowHeader = .ok header) :
    header.segment = w.segment ∧ header.targetLength = w.targetLength ∧
      header.sections.checksum = w.checksum ∧ header.sections.Describes w.written := by
  simp only [windowHeader, bind, Except.bind] at h
  split at h
  · cases h
  · next data =>
    split at h
    · cases h
    · next instructions =>
      split at h
      · cases h
      · next addresses =>
        cases h
        obtain ⟨rfl, -⟩ := checkLength_ok data
        obtain ⟨rfl, -⟩ := checkLength_ok instructions
        obtain ⟨rfl, -⟩ := checkLength_ok addresses
        exact ⟨rfl, rfl, rfl, rfl, rfl, rfl⟩

theorem windowBytes_ok (h : w.windowBytes = .ok bytes) (nonempty : bytes ≠ []) :
    ∃ header, w.windowHeader = .ok header ∧ bytes = header.toBytes ++ w.written.toList := by
  simp only [windowBytes, bind, Except.bind] at h
  split at h
  · cases h
    exact absurd rfl nonempty
  · split at h
    · cases h
    · next header described =>
      cases h
      exact ⟨header, described, rfl⟩

/-- Every figure in the header has been checked against its field, or is given here. -/
theorem fields_of_holds {source out : Array UInt8} {header : WindowHeader}
    (holds : w.Holds source out) (segment : w.segment = opening.segment)
    (fieldSegment : opening.segment.Fields) (checksum : ∀ n ∈ w.checksum, n ≤ Varint.maxUInt32)
    (described : w.windowHeader = .ok header) (short : header.deltaLength ≤ maxField) :
    header.Fields := by
  obtain ⟨segment', targetLength, checksums, -⟩ := windowHeader_ok described
  refine ⟨?_, ?_, short, ?_⟩
  · rw [segment', segment]
    exact fieldSegment
  · rw [targetLength]
    exact holds.field
  · rw [checksums]
    exact checksum

theorem decode_windowBytes {dictionary history out : Array UInt8}
    (holds : w.Holds (opening.source dictionary history) out) (segment : w.segment = opening.segment)
    (fieldSegment : opening.segment.Fields) (within : opening.Within dictionary history)
    (checksum : ∀ n ∈ w.checksum, n = (Checksum.adler32 out.toList).toNat)
    (handedOut : w.windowBytes = .ok bytes) (nonempty : bytes ≠ [])
    (field : ∀ header, w.windowHeader = .ok header → header.deltaLength ≤ maxField)
    {d : WindowDecoder} (phase : d.phase = .header) (table : d.reader.table = w.table)
    (sizes : d.cache.sizes = w.cache.sizes)
    (extensions : w.interleaved = true ∨ w.checksum.isSome = true → d.version = .sdch)
    {config : DecoderConfig} (allowed : config.allowTarget = true)
    (limits : config.checkLength history.size out.size = .ok ()) (offset : Nat)
    (rest : List UInt8) :
    ∃ d', d.decode ⟨dictionary, config, history.size⟩ ⟨offset, bytes ++ rest⟩ history =
        ⟨.ok (.complete history.size (history.size + out.size)), d', ⟨offset + bytes.length, rest⟩,
          history ++ out⟩ ∧
      d.SameStart d' := by
  obtain ⟨header, described, rfl⟩ := windowBytes_ok handedOut nonempty
  obtain ⟨segment', targetLength, checksums, describes⟩ := windowHeader_ok described
  rw [segment] at segment'
  rw [holds.targetLength] at targetLength
  have makes : Makes d.reader.table w.interleaved d.cache.sizes
      (AddressSpace.source ⟨dictionary, header.segment, history.size⟩ history) out w.written
      w.cache := by
    rw [segment', Opening.source_segment, table, sizes]
    exact holds.makes
  have fields : header.Fields := fields_of_holds holds segment fieldSegment
    (fun n present => checksum n present ▸ Varint.toNat_le_maxUInt32 _) described
    (field header described)
  have fits : header.Fits (WindowContext.headerContext ⟨dictionary, config, history.size⟩ d.version)
      (config.checkLength history.size) := by
    refine ⟨?_, fields.targetLength, targetLength ▸ limits⟩
    simp only [WindowContext.headerContext, allowed, segment']
    exact Opening.within_segment within
  refine WindowDecoder.decode_makes phase ?_ makes targetLength.symm describes fits fields ?_ ?_ ?_
  · simp only [WindowContext.historySize, allowed, if_true]
  · rw [checksums]
    exact checksum
  · rw [checksums]
    intro needs
    rw [extensions needs]
    rfl
  · exact Cursor.takes_append offset _ rest

/-- A window that a writer hands out is read back by a decoder with the same table and caches, as
long as its lengths can be written down. The decoder makes what the edits make when they are carried
out byte by byte, and reads the window and nothing behind it. -/
theorem decode_closeWindow (between : w.Between) (opened : opening.call w = (.ok (), w₁))
    (written : w₁.edits es = (.ok (), w₂)) {dictionary history : Array UInt8}
    (within : opening.Within dictionary history)
    (checked : w₃ = w₂ ∨ w₃ = w₂.setChecksum (Checksum.adler32
      (Edit.replayAll (opening.source dictionary history) es).toList).toNat)
    (closed : w₃.closeWindow = (.ok bytes, w₄)) (nonempty : bytes ≠ [])
    (field : ∀ header, w₃.windowHeader = .ok header → header.deltaLength ≤ maxField)
    {d : WindowDecoder} (phase : d.phase = .header) (table : d.reader.table = w.table)
    (sizes : d.cache.sizes = w.cache.sizes)
    (extensions : w.interleaved = true ∨ w₃.checksum.isSome = true → d.version = .sdch)
    {config : DecoderConfig} (allowed : config.allowTarget = true)
    (limits : config.checkLength history.size
      (Edit.replayAll (opening.source dictionary history) es).size = .ok ())
    (offset : Nat) (rest : List UInt8) :
    ∃ d', d.decode ⟨dictionary, config, history.size⟩ ⟨offset, bytes ++ rest⟩ history =
        ⟨.ok (.complete history.size
            (history.size + (Edit.replayAll (opening.source dictionary history) es).size)),
          d', ⟨offset + bytes.length, rest⟩,
          history ++ Edit.replayAll (opening.source dictionary history) es⟩ ∧
      d.SameStart d' := by
  have length := Opening.length_segment within
  obtain ⟨holds, keeps⟩ := holds_edits (usable_call between.usable opened)
    (holds_call length opened) written
  obtain ⟨-, fieldSegment, rfl⟩ := Opening.call_ok opened
  obtain ⟨handedOut, -⟩ := closeWindow_ok closed
  have segment : w₂.segment = opening.segment := keeps.segment
  have fresh : w₂.checksum = none := keeps.checksum
  have table : d.reader.table = w₂.table := table.trans keeps.table.symm
  have sizes : d.cache.sizes = w₂.cache.sizes := sizes.trans keeps.sizes.symm
  have interleaved : w₂.interleaved = w.interleaved := keeps.interleaved
  rw [← interleaved] at extensions
  rcases checked with rfl | rfl
  · refine decode_windowBytes holds segment fieldSegment within ?_ handedOut nonempty field phase table
      sizes extensions allowed limits offset rest
    intro n present
    rw [fresh] at present
    cases present
  · refine decode_windowBytes (holds.setChecksum _) segment fieldSegment within ?_ handedOut nonempty
      field phase table sizes extensions allowed limits offset rest
    intro n present
    exact (Option.some.inj present).symm

theorem decode_closeWindow_copy_add :
    let opened := (standard true).openWindow 4
    let written := opened.2.edits [.copy 0 4, .add [7]]
    let checked := written.2.setChecksum (Checksum.adler32 [1, 2, 3, 4, 7]).toNat
    ∃ bytes, checked.closeWindow.1 = .ok bytes ∧ ∃ d',
      (WindowDecoder.ofVersion .sdch).decode ⟨#[1, 2, 3, 4], {}, 0⟩ ⟨0, bytes ++ [9]⟩ #[] =
        ⟨.ok (.complete 0 5), d', ⟨bytes.length, [9]⟩, #[1, 2, 3, 4, 7]⟩ := by
  intro opened written checked
  have runs : written.1.toBool = true ∧
      checked.closeWindow.1.toOption.any (fun bytes => !bytes.isEmpty) = true ∧
      checked.windowHeader.toOption.all (fun header => header.deltaLength ≤ maxField) = true := by
    decide +kernel
  obtain ⟨accepted, handedOut, short⟩ := runs
  obtain ⟨bytes, out, nonempty⟩ : ∃ bytes, checked.closeWindow.1 = .ok bytes ∧ bytes ≠ [] := by
    cases h : checked.closeWindow.1 with
    | error error =>
      rw [h] at handedOut
      cases handedOut
    | ok bytes =>
      refine ⟨bytes, rfl, ?_⟩
      rintro rfl
      rw [h] at handedOut
      cases handedOut
  have edited : written = (.ok (), written.2) := by
    cases h : written.1 with
    | error error =>
      rw [h] at accepted
      cases accepted
    | ok u => exact Prod.ext h rfl
  obtain ⟨d', decoded, -⟩ := @decode_closeWindow (standard true) opened.2 written.2 checked
    checked.closeWindow.2 (.dictionary 4) [.copy 0 4, .add [7]] bytes (.standard true) rfl edited
    #[1, 2, 3, 4] #[] (Nat.le_refl 4) (.inr rfl) (Prod.ext out rfl) nonempty
    (fun header described => by
      rw [described] at short
      exact of_decide_eq_true short)
    (WindowDecoder.ofVersion .sdch) rfl rfl rfl (fun _ => rfl) {} rfl rfl 0 [9]
  have target : Edit.replayAll (Opening.source (.dictionary 4) #[1, 2, 3, 4] #[])
      [.copy 0 4, .add [7]] = #[1, 2, 3, 4, 7] := by decide
  rw [target, Nat.zero_add] at decoded
  exact ⟨bytes, out, d', decoded⟩

end DeltaWriter

end DeltaCoding
