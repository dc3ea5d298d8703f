import DeltaCoding.Proofs.Writer.Closing

namespace DeltaCoding

namespace WindowHeader

theorem length_toBytes (header : WindowHeader) :
    header.toBytes.length + header.sections.total = 1 + (segmentBytes header.segment).length +
      Varint.encodedLength header.deltaLength + header.deltaLength := by
  have fields := length_deltaFields header
  simp only [toBytes, List.length_cons, List.length_append, Varint.length_encode]
  omega

theorem deltaLength_lt {header header' : WindowHeader}
    (targetLength : header'.targetLength = header.targetLength)
    (checksum : header'.sections.checksum = header.sections.checksum)
    (data : header.sections.data ≤ header'.sections.data)
    (instructions : header.sections.instructions ≤ header'.sections.instructions)
    (addresses : header.sections.addresses ≤ header'.sections.addresses)
    (total : header.sections.total < header'.sections.total) :
    header.deltaLength < header'.deltaLength := by
  have data := Varint.encodedLength_mono data
  have instructions := Varint.encodedLength_mono instructions
  have addresses := Varint.encodedLength_mono addresses
  simp only [deltaLength, targetLength, checksum]
  omega

end WindowHeader

namespace DeltaWriter

variable {w w' : DeltaWriter} {instruction : UInt8} {size mode : Nat}

/-! ## Fuller windows -/

/-- The window of `w'` holds more than that of `w`, but its header says the same of the target. -/
structure Overfilled (w w' : DeltaWriter) : Prop where
  segment : w'.segment = w.segment
  targetLength : w'.targetLength = w.targetLength
  checksum : w'.checksum = w.checksum
  data : w.data.size ≤ w'.data.size
  instructions : w.instructions.size ≤ w'.instructions.size
  addresses : w.addresses.size ≤ w'.addresses.size
  total : w.written.count < w'.written.count
  something : 0 < w'.instructions.size

theorem Overfilled.deltaLength (fuller : w.Overfilled w') :
    w.header.deltaLength < w'.header.deltaLength := by
  refine WindowHeader.deltaLength_lt fuller.targetLength fuller.checksum fuller.data fuller.instructions
    fuller.addresses ?_
  rw [total_header, total_header]
  exact fuller.total

theorem length_window (w : DeltaWriter) : (w.header.toBytes ++ w.written.toList).length =
    1 + (WindowHeader.segmentBytes w.segment).length +
      Varint.encodedLength w.header.deltaLength + w.header.deltaLength := by
  have sections : w.written.toList.length = w.written.count := by
    simp only [SectionBytes.toList, SectionBytes.count, List.length_append]
    omega
  have header := w.header.length_toBytes
  rw [List.length_append, sections, ← total_header, header]
  rfl

theorem Overfilled.length_lt {bytes bytes' : List UInt8} (fuller : w.Overfilled w')
    (closed : w.closeWindow.1 = .ok bytes) (closed' : w'.closeWindow.1 = .ok bytes') :
    bytes.length < bytes'.length := by
  have something := fuller.something
  obtain ⟨-, nothing⟩ | rfl := eq_of_closeWindow closed'
  · rw [nothing] at something
    cases something
  · rw [length_window]
    obtain ⟨rfl, -⟩ | rfl := eq_of_closeWindow closed
    · rw [List.length_nil]
      omega
    · have longer := fuller.deltaLength
      have field := Varint.encodedLength_mono (Nat.le_of_lt longer)
      rw [length_window, fuller.segment]
      omega

/-! ## Refused edits -/

theorem size_putOpcode {choice : OpcodeChoice}
    (chosen : w.choose instruction size mode = some choice) :
    w.instructions.size ≤ (w.putOpcode choice size).instructions.size ∧
      0 < (w.putOpcode choice size).instructions.size := by
  obtain ⟨-, -, ⟨place, last, placed, -, there, -⟩ | ⟨placed, -⟩⟩ := choose_cases chosen
  · obtain ⟨inside, -⟩ := Array.getElem?_eq_some_iff.1 there
    simp only [putOpcode, placed, ← Array.length_toList, Array.toList_appendList,
      List.length_append, Array.toList_setIfInBounds, List.length_set] at inside ⊢
    omega
  · simp only [putOpcode, placed, ← Array.length_toList, Array.toList_appendList,
      List.length_append, Array.toList_push, List.length_singleton]
    omega

theorem overfilled_append {instructions : Array UInt8} {lastOpcode : Option Nat}
    {supplied : SectionBytes} (more : w.instructions.size ≤ instructions.size)
    (something : 0 < instructions.size) (some : 0 < supplied.count) :
    w.Overfilled
      ({ w with instructions := instructions, lastOpcode := lastOpcode }.append supplied) := by
  simp only [SectionBytes.count] at some
  refine ⟨rfl, rfl, rfl, ?_, ?_, ?_, ?_, ?_⟩
  all_goals
    simp only [append, written, SectionBytes.count, ← Array.length_toList, Array.toList_appendList,
      List.length_append] at more something ⊢
    omega

/-- All that an edit can be refused for while it is written is the length of the target. -/
theorem write_refused {error : EncodeError} {e : Edit} {supplied : SectionBytes}
    {finish : DeltaWriter → DeltaWriter} (usable : w.Usable)
    (writes : w.Writes e instruction mode supplied finish)
    (refused : w.write instruction e.size mode finish = (.error error, w')) :
    error = .tooLarge .targetWindowLength (w.targetLength + e.size) ∧
      maxField < w.targetLength + e.size ∧ w.Overfilled w' := by
  obtain ⟨choice, chosen⟩ := choose_some usable (writes.query usable) e.size
  obtain ⟨more, something⟩ := size_putOpcode chosen
  obtain ⟨instructions, lastOpcode, -, -, put⟩ := w.putOpcode_eq choice e.size
  simp only [write, chosen] at refused
  rw [writes.finishes _ (by rw [put]), grow] at refused
  rw [put] at refused more something
  split at refused
  · next long =>
    cases refused
    exact ⟨rfl, long, overfilled_append more something writes.some⟩
  · cases refused

/-- An edit that is refused leaves the writer as it was, unless it takes the target beyond its bound:
then the edit is in the window, whose header does not count it, and what is handed out is longer than
it would be without the edit. -/
theorem edit_refused {error : EncodeError} {e : Edit} (reached : w.Reached)
    (refused : w.edit e = (.error error, w')) :
    (w' = w ∧ ∀ n, error ≠ .tooLarge .targetWindowLength n) ∨
      error = .tooLarge .targetWindowLength (w.targetLength + e.size) ∧
        maxField < w.targetLength + e.size ∧
        w'.targetLength = w.targetLength ∧ w.written.count < w'.written.count ∧
        ∀ bytes bytes', w.closeWindow.1 = .ok bytes → w'.closeWindow.1 = .ok bytes' →
          bytes.length < bytes'.length := by
  obtain passed | ⟨error', refused', other⟩ | ⟨cache, _, _, _, _, sizes, writes, written⟩ :=
    w.edit_cases e
  · rw [passed] at refused
    cases refused
  · rw [refused'] at refused
    cases refused
    exact .inl ⟨rfl, other⟩
  · rw [written] at refused
    have cached : w.Persists { w with cache := cache } := ⟨⟨rfl, rfl, sizes⟩, rfl⟩
    obtain ⟨named, long, fuller⟩ := write_refused (cached.usable reached.usable) writes refused
    have fuller : w.Overfilled w' := ⟨fuller.segment, fuller.targetLength, fuller.checksum, fuller.data,
      fuller.instructions, fuller.addresses, fuller.total, fuller.something⟩
    exact .inr ⟨named, long, fuller.targetLength, fuller.total, fun _ _ => fuller.length_lt⟩

theorem edit_refused_copy_run :
    let w := (((standard false).openWindow 0).2.edit (.add [97])).2
    let w₁ := (w.edit (.copy 1 4)).2
    let w₂ := (w₁.edit (.run maxField 98)).2
    (w.edit (.copy 1 4)).1 = .error (.usage .addressBeyondPosition) ∧ w₁ = w ∧
      (w₁.edit (.run maxField 98)).1 = .error (.tooLarge .targetWindowLength 0x80000000) ∧
      w₂.targetLength = 1 ∧ w.written.count < w₂.written.count := by
  intro w w₁ w₂
  have reached : w.Reached :=
    .request (.request (.standard false) (.opening (.dictionary 0))) (.edit (.add [97]))
  obtain ⟨beyond, long, length⟩ :
      (w.edit (.copy 1 4)).1 = .error (.usage .addressBeyondPosition) ∧
      (w₁.edit (.run maxField 98)).1 = .error (.tooLarge .targetWindowLength 0x80000000) ∧
      w.targetLength = 1 := by
    decide +kernel
  have copy : w.edit (.copy 1 4) = (.error (.usage .addressBeyondPosition), w₁) := by
    rw [← beyond]
  have run : w₁.edit (.run maxField 98) =
      (.error (.tooLarge .targetWindowLength 0x80000000), w₂) := by
    rw [← long]
  clear_value w₂ w₁ w
  refine ⟨beyond, ?_⟩
  obtain ⟨rfl, -⟩ | ⟨named, -⟩ := edit_refused reached copy
  · obtain ⟨-, other⟩ | ⟨-, -, unchanged, more, -⟩ := edit_refused reached run
    · exact absurd rfl (other 0x80000000)
    · exact ⟨rfl, long, unchanged.trans length, more⟩
  · cases named

/-- A RUN that does not fit any more is refused after an ADD, but the window that is handed out holds
its opcode, its size and its byte. -/
theorem edit_refused_overflow :
    let w := (((standard false).openWindow 0).2.edit (.add [97])).2
    let w' := (w.edit (.run maxField 98)).2
    (w.edit (.run maxField 98)).1 = .error (.tooLarge .targetWindowLength 0x80000000) ∧
      w.closeWindow.1 = .ok [0, 7, 1, 0, 1, 1, 0, 97, 2] ∧
      w'.closeWindow.1 = .ok [0, 14, 1, 0, 2, 7, 0, 97, 98, 2, 0, 135, 255, 255, 255, 127] := by
  decide +kernel

end DeltaWriter

end DeltaCoding
