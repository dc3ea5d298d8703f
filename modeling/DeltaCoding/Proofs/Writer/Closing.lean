import DeltaCoding.Proofs.Writer.Refusal

namespace DeltaCoding

namespace WindowHeader

variable {header : WindowHeader} {context : Context} {check : Nat → Except FormatError Unit}

/-- A header whose delta encoding is too long for its field is refused at that field. -/
theorem parse_overlong (segment : header.segment.Within context.dictionarySize context.decoded
      context.allowTarget) (fields : header.segment.Fields)
    (long : Varint.maxInt32 < header.deltaLength) {c c' : Cursor}
    (takes : c.Takes header.toBytes c') :
    (parse context check (.ofCursor c)).1 = .error (.malformed .invalidVarint) := by
  obtain ⟨c₁, front, takes⟩ := @Cursor.Takes.split _ _
    (header.indicator.toByte :: segmentBytes header.segment) _ takes
  obtain ⟨c₂, delta, -⟩ := takes.split
  rw [parse, HeaderStep.bind_ok (indicatorAndSegment_run segment fields front)]
  simp only
  have refused : HeaderStep.field Varint.parseInt32 { HeaderState.ofCursor c with cursor := c₁ } =
      (.error (.malformed .invalidVarint), { HeaderState.ofCursor c with cursor := c₁ }) := by
    simp only [HeaderStep.field, ExceptT.mk, Varint.parseInt32,
      @Varint.refuses_encode Varint.int32 _ long _ _ delta]
  have lengths : HeaderStep.windowLengths { HeaderState.ofCursor c with cursor := c₁ } = _ :=
    HeaderStep.bind_error refused
  rw [HeaderStep.bind_error lengths]

end WindowHeader

namespace DeltaWriter

variable {w w' w₁ w₂ : DeltaWriter} {opening : Opening} {bytes : List UInt8}

/-! ## What is handed out -/

theorem checkLength_error {field : BoundedField} {length : Nat} {error : EncodeError}
    (h : checkLength field length = .error error) :
    error = .tooLarge field length ∧ maxField < length := by
  simp only [checkLength] at h
  split at h
  · next long =>
    cases h
    exact ⟨rfl, long⟩
  · cases h

theorem windowHeader_eq {header : WindowHeader} (h : w.windowHeader = .ok header) :
    header = w.header := by
  obtain ⟨segment, targetLength, checksum, data, instructions, addresses⟩ := windowHeader_ok h
  obtain ⟨segment', targetLength', ⟨data', instructions', addresses', checksum'⟩⟩ := header
  simp only [written, Array.length_toList] at *
  rw [segment, targetLength, checksum, data, instructions, addresses]
  rfl

theorem windowHeader_error {error : EncodeError} (h : w.windowHeader = .error error) :
    ∃ field length, error = .tooLarge field length ∧ maxField < length ∧
      (length = w.data.size ∨ length = w.instructions.size ∨ length = w.addresses.size) := by
  simp only [windowHeader, bind, Except.bind] at h
  split at h
  · next refused =>
    cases h
    obtain ⟨named, long⟩ := checkLength_error refused
    exact ⟨_, _, named, long, .inl rfl⟩
  · split at h
    · next refused =>
      cases h
      obtain ⟨named, long⟩ := checkLength_error refused
      exact ⟨_, _, named, long, .inr (.inl rfl)⟩
    · split at h
      · next refused =>
        cases h
        obtain ⟨named, long⟩ := checkLength_error refused
        exact ⟨_, _, named, long, .inr (.inr rfl)⟩
      · cases h

/-- A window is left out if there is nothing in it, or refused for the length of a section, or handed
out as its header with its sections behind. -/
theorem closeWindow_cases (writing : w.state = .writing) :
    (w.closeWindow.1 = .ok [] ∧ w.instructions = #[] ∧ w.checksum = none) ∨
      (∃ field length, w.closeWindow.1 = .error (.tooLarge field length) ∧ maxField < length ∧
        (length = w.data.size ∨ length = w.instructions.size ∨ length = w.addresses.size)) ∨
      w.closeWindow.1 = .ok (w.header.toBytes ++ w.written.toList) := by
  simp only [closeWindow, writing, windowBytes]
  split
  · next empty =>
    simp only [Bool.and_eq_true, Array.isEmpty_iff, Option.isNone_iff_eq_none] at empty
    exact .inl ⟨rfl, empty⟩
  · cases described : w.windowHeader with
    | error error =>
      obtain ⟨field, length, rfl, long⟩ := windowHeader_error described
      exact .inr (.inl ⟨field, length, rfl, long⟩)
    | ok header =>
      rw [windowHeader_eq described]
      exact .inr (.inr rfl)

theorem eq_of_closeWindow (closed : w.closeWindow.1 = .ok bytes) :
    bytes = [] ∧ w.instructions = #[] ∨ bytes = w.header.toBytes ++ w.written.toList := by
  have writing : w.state = .writing := by
    simp only [closeWindow] at closed
    split at closed
    · assumption
    · cases closed
    · cases closed
  obtain ⟨left, nothing, -⟩ | ⟨_, _, refused, -⟩ | handedOut := closeWindow_cases writing
  · exact .inl ⟨Except.ok.inj (closed.symm.trans left), nothing⟩
  · cases closed.symm.trans refused
  · exact .inr (Except.ok.inj (closed.symm.trans handedOut))

/-! ## Windows that are filled -/

/-- What can be made of an open window by edits that are accepted and by checksums of 32 bits. -/
inductive Fills (w₁ : DeltaWriter) : DeltaWriter → Prop where
  | nothing : Fills w₁ w₁
  | edit {w w' : DeltaWriter} {e : Edit} (before : Fills w₁ w) (accepted : w.edit e = (.ok (), w')) :
      Fills w₁ w'
  | checksum {w : DeltaWriter} {n : Nat} (before : Fills w₁ w) (field : n ≤ Varint.maxUInt32) :
      Fills w₁ (w.setChecksum n)

/-- The window is open, and what its header says but for the sections fits its fields. -/
structure Writable (w : DeltaWriter) : Prop where
  writing : w.state = .writing
  segment : w.segment.Fields
  targetLength : w.targetLength ≤ maxField
  checksum : ∀ n ∈ w.checksum, n ≤ Varint.maxUInt32

theorem writable_call (opened : opening.call w = (.ok (), w₁)) : w₁.Writable := by
  obtain ⟨-, fields, rfl⟩ := Opening.call_ok opened
  exact ⟨rfl, fields, Nat.zero_le _, fun _ none => by cases none⟩

theorem Fills.writable (filled : w₁.Fills w₂) (usable : w₁.Usable)
    (opened : opening.call w = (.ok (), w₁)) : w₂.Writable := by
  have length : opening.segment.length = (Array.replicate opening.segment.length (0 : UInt8)).size :=
    Array.size_replicate.symm
  suffices h : w₂.Usable ∧
      (∃ out, w₂.Holds (.replicate opening.segment.length 0) out) ∧ w₂.Writable from h.2.2
  induction filled with
  | nothing => exact ⟨usable, ⟨_, holds_call length opened⟩, writable_call opened⟩
  | edit before accepted ih =>
    obtain ⟨usable, ⟨out, holds⟩, writable⟩ := ih
    obtain ⟨holds', keeps⟩ := holds_edit usable holds accepted
    refine ⟨keeps.usable usable, ⟨_, holds'⟩, keeps.state.trans writable.writing, ?_, holds'.field, ?_⟩
    · rw [keeps.segment]
      exact writable.segment
    · rw [keeps.checksum]
      exact writable.checksum
  | checksum before field ih =>
    obtain ⟨usable, ⟨out, holds⟩, writable⟩ := ih
    refine ⟨⟨usable.valid, usable.index⟩, ⟨out, holds.setChecksum _⟩, writable.writing,
      writable.segment, writable.targetLength, ?_⟩
    rintro _ ⟨⟩
    exact field

/-! ## Reading back -/

/-- A window that edits and checksums have been accepted for is left out if there is nothing in it, and
refused if a section is too long for its field. Otherwise it is handed out, and its header is read
back, with the sections behind it, if and only if the length of the delta encoding fits its field. -/
theorem closeWindow_readable (reached : w.Reached) (opened : opening.call w = (.ok (), w₁))
    (filled : w₁.Fills w₂) {context : WindowHeader.Context} {check : Nat → Except FormatError Unit}
    (segment : w₂.segment.Within context.dictionarySize context.decoded context.allowTarget)
    (extensions : w₂.checksum.isSome = true → context.version.hasExtensions = true)
    (checked : check w₂.targetLength = .ok ()) (offset : Nat) (rest : List UInt8) :
    (w₂.closeWindow.1 = .ok [] ∧ w₂.instructions = #[] ∧ w₂.checksum = none) ∨
      (∃ field length, w₂.closeWindow.1 = .error (.tooLarge field length) ∧ maxField < length ∧
        (length = w₂.data.size ∨ length = w₂.instructions.size ∨ length = w₂.addresses.size)) ∨
      ∃ bytes, w₂.closeWindow.1 = .ok bytes ∧
        ((∃ s, WindowHeader.parse context check (.ofCursor ⟨offset, bytes ++ rest⟩) =
              (.ok w₂.header, s) ∧
            s.cursor = ⟨offset + w₂.header.toBytes.length, w₂.written.toList ++ rest⟩) ↔
          w₂.header.deltaLength ≤ maxField) := by
  have writable := filled.writable (usable_call reached.usable opened) opened
  obtain nothing | long | handedOut := closeWindow_cases writable.writing
  · exact .inl nothing
  · exact .inr (.inl long)
  refine .inr (.inr ⟨_, handedOut, ?_⟩)
  rw [List.append_assoc]
  have takes := Cursor.takes_append offset w₂.header.toBytes (w₂.written.toList ++ rest)
  constructor
  · rintro ⟨s, read, -⟩
    refine Nat.not_lt.1 fun long => ?_
    have refused := @WindowHeader.parse_overlong w₂.header context check segment writable.segment long
      _ _ takes
    rw [read] at refused
    cases refused
  · intro short
    exact WindowHeader.parse_toBytes ⟨segment, writable.targetLength, checked⟩
      ⟨writable.segment, writable.targetLength, short, writable.checksum⟩ extensions takes

theorem closeWindow_readable_target :
    let w₁ := ((standard true).openTargetWindow 5 7).2
    let w₂ := (((w₁.edit (.copy 2 4)).2.setChecksum 0xFFFFFFFF).edit (.add [1])).2
    let bytes : List UInt8 := [6, 7, 5, 13, 5, 0, 0, 3, 0, 143, 255, 255, 255, 127, 247, 2, 1]
    w₂.closeWindow.1 = .ok bytes ∧
      ∃ s, WindowHeader.parse ⟨.sdch, 0, 12, true⟩ (fun _ => .ok ()) (.ofCursor ⟨3, bytes ++ [9]⟩) =
          (.ok ⟨.target 5 7, 5, ⟨0, 3, 0, some 0xFFFFFFFF⟩⟩, s) ∧
        s.cursor = ⟨17, [247, 2, 1, 9]⟩ := by
  intro w₁ w₂ bytes
  obtain ⟨opened, copied, added, closed, header, length, sections⟩ :
      ((Opening.target 5 7).call (standard true)).1 = .ok () ∧
      (w₁.edit (.copy 2 4)).1 = .ok () ∧
      (((w₁.edit (.copy 2 4)).2.setChecksum 0xFFFFFFFF).edit (.add [1])).1 = .ok () ∧
      w₂.closeWindow.1 = .ok bytes ∧
      w₂.header = ⟨.target 5 7, 5, ⟨0, 3, 0, some 0xFFFFFFFF⟩⟩ ∧
      w₂.header.toBytes.length = 14 ∧ w₂.written.toList = [247, 2, 1] := by
    decide +kernel
  have opened : (Opening.target 5 7).call (standard true) = (.ok (), w₁) := Prod.ext opened rfl
  have filled : w₁.Fills w₂ := .edit (.checksum (.edit .nothing (Prod.ext copied rfl))
    (Nat.le_refl _)) (Prod.ext added rfl)
  clear_value w₂ w₁
  have segment : w₂.segment = .target 5 7 := congrArg WindowHeader.segment header
  have within : w₂.segment.Within 0 12 true := by
    rw [segment]
    exact ⟨rfl, Nat.le_refl _⟩
  obtain ⟨left, -⟩ | ⟨_, _, refused, -⟩ | ⟨_, handedOut, reads⟩ :=
    @closeWindow_readable _ _ _ (.target 5 7) (.standard true) opened filled ⟨.sdch, 0, 12, true⟩
      (fun _ => .ok ()) within (fun _ => rfl) rfl 3 [9]
  · exact absurd (Except.ok.inj (closed.symm.trans left)) (List.cons_ne_nil _ _)
  · cases closed.symm.trans refused
  · obtain rfl := Except.ok.inj (closed.symm.trans handedOut)
    rw [length, sections, header] at reads
    exact ⟨closed, reads.2 (by decide +kernel)⟩

/-- In the standard layout the literal bytes of an ADD go into the data section, and only the opcode and
the size into another. -/
theorem sections_add {literal : List UInt8} (standard : w.interleaved = false)
    (positive : 0 < literal.length) (accepted : w.edit (.add literal) = (.ok (), w')) :
    w'.data.size = w.data.size + literal.length ∧
      w'.instructions.size ≤ w.instructions.size + 6 ∧ w'.addresses = w.addresses := by
  simp only [edit, inWindow] at accepted
  split at accepted
  · rw [if_neg (by simp only [Edit.size]; omega)] at accepted
    simp only [writeAdd] at accepted
    split at accepted
    · cases accepted
    · next field =>
      obtain ⟨choice, -, -, rfl⟩ := write_ok (fun v same => by rw [putData_eq, same]) accepted
      have few := @count_putOpcode w literal.length choice (Nat.not_lt.1 field)
      obtain ⟨instructions, lastOpcode, -, -, put⟩ := w.putOpcode_eq choice literal.length
      rw [put] at few ⊢
      simp only [written, SectionBytes.count, Array.length_toList] at few
      simp only [append, SectionBytes.literal, standard, Bool.false_eq_true, if_false,
        Array.appendList_nil]
      refine ⟨?_, by omega, trivial⟩
      rw [← Array.length_toList, Array.toList_appendList, List.length_append, Array.length_toList]
  · cases accepted
  · cases accepted

theorem overlong_add {literal : List UInt8} (longest : literal.length = maxField) :
    ∃ w₂, ((standard false).openWindow 0).2.edits [.add literal] = (.ok (), w₂) ∧
      w₂.closeWindow.1 = .ok (w₂.header.toBytes ++ w₂.written.toList) ∧ w₂.segment = .none ∧
      maxField < w₂.header.deltaLength := by
  have positive : 0 < literal.length := by
    rw [longest]
    decide
  have usable : ((standard false).openWindow 0).2.Usable :=
    @usable_call _ _ (.dictionary 0) (Reached.standard false).usable rfl
  have holds : ((standard false).openWindow 0).2.Holds #[] #[] :=
    @holds_call (standard false) _ (.dictionary 0) _ rfl rfl
  obtain ⟨w₂, accepted⟩ := accepts_edit (e := .add literal) usable holds rfl
    (fun _ _ h => by cases h) (by simp only [Edit.size, longest]; decide)
  obtain ⟨holds, keeps⟩ := holds_edit usable holds accepted
  obtain ⟨data, few, addresses⟩ := sections_add rfl positive accepted
  have data : w₂.data.size = maxField := by
    rw [data, longest]
    exact Nat.zero_add _
  have few : w₂.instructions.size ≤ 6 := few
  have none : w₂.addresses.size = 0 := by
    rw [addresses]
    rfl
  have something : w₂.instructions.isEmpty = false := by
    rw [← Array.isEmpty_toList, List.isEmpty_eq_false_iff]
    refine holds.makes.instructions_ne fun empty => ?_
    have size := Edit.size_replay #[] #[] (.add literal)
    rw [empty, Edit.size, longest] at size
    cases size
  have described : w₂.windowHeader = .ok w₂.header :=
    windowHeader_fits (by omega) (by simp only [maxField]; omega) (by omega)
  refine ⟨w₂, by simp only [edits, accepted], ?_, keeps.segment, ?_⟩
  · have writing : w₂.state = .writing := keeps.state
    simp only [closeWindow, writing, windowBytes, something, described]
    rfl
  · simp only [WindowHeader.deltaLength, SectionLengths.total, header, data]
    omega

/-- A target of the largest length, as literal bytes: the window is handed out, and no reader gets
beyond the length of its delta encoding. -/
theorem closeWindow_unreadable :
    let written := ((standard false).openWindow 0).2.edits [.add (.replicate maxField 0)]
    written.1 = .ok () ∧ ∃ bytes, written.2.closeWindow.1 = .ok bytes ∧ ∀ rest,
      (WindowHeader.parse ⟨.standard, 0, 0, true⟩ (fun _ => .ok ())
        (.ofCursor ⟨0, bytes ++ rest⟩)).1 = .error (.malformed .invalidVarint) := by
  obtain ⟨w₂, written, closed, segment, long⟩ :=
    @overlong_add (.replicate maxField 0) List.length_replicate
  intro result
  rw [show result = (.ok (), w₂) from written]
  refine ⟨rfl, _, closed, fun rest => ?_⟩
  rw [List.append_assoc]
  refine WindowHeader.parse_overlong ?_ ?_ long (Cursor.takes_append 0 _ _)
  · rw [show w₂.header.segment = .none from segment]
    trivial
  · rw [show w₂.header.segment = .none from segment]
    trivial

end DeltaWriter

end DeltaCoding
