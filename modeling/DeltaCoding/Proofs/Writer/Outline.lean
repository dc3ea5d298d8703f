import DeltaCoding.Proofs.Writer.Refusal
import DeltaCoding.Writer.Outline

/-!
# Writers do not look at literal bytes

In the standard layout everything that a writer does, but for the data section itself, follows from
the number of the literal bytes: whatever edits it is handed, its outline gives the same answers and
stays its outline (`DeltaWriter.outline_edits`), and the two parts that the outline hands out are the
window, but for the literal bytes between them (`DeltaWriter.closeWindow_outline`).
-/

namespace DeltaCoding

namespace Edit

/-- What goes into the data section of the standard layout. -/
def literals : Edit → List UInt8
  | add bytes => bytes
  | copy _ _ => []
  | run _ byte => [byte]

theorem size_outline (e : Edit) : e.outline.size = e.size := by
  cases e <;> rfl

end Edit

namespace DeltaWriter

variable {w w' : DeltaWriter} {instruction : UInt8} {size mode : Nat}

@[simp] theorem state_withoutData (w : DeltaWriter) : w.withoutData.state = w.state := rfl

@[simp] theorem segment_withoutData (w : DeltaWriter) : w.withoutData.segment = w.segment := rfl

@[simp] theorem cache_withoutData (w : DeltaWriter) : w.withoutData.cache = w.cache := rfl

@[simp] theorem targetLength_withoutData (w : DeltaWriter) :
    w.withoutData.targetLength = w.targetLength := rfl

@[simp] theorem instructions_withoutData (w : DeltaWriter) :
    w.withoutData.instructions = w.instructions := rfl

@[simp] theorem addresses_withoutData (w : DeltaWriter) :
    w.withoutData.addresses = w.addresses := rfl

@[simp] theorem checksum_withoutData (w : DeltaWriter) : w.withoutData.checksum = w.checksum := rfl

@[simp] theorem choose_withoutData (w : DeltaWriter) (instruction : UInt8) (size mode : Nat) :
    w.withoutData.choose instruction size mode = w.choose instruction size mode := rfl

@[simp] theorem base_outline (w : DeltaWriter) : w.outline.base = w.withoutData := rfl

@[simp] theorem dataLength_outline (w : DeltaWriter) : w.outline.dataLength = w.data.size := rfl

/-! ## Opening -/

theorem outline_openSegment (w : DeltaWriter) (segment : SourceSegment) :
    w.outline.opened (w.withoutData.openSegment segment) =
      (w.openSegment segment).map id outline := by
  simp only [openSegment, state_withoutData]
  split
  · rfl
  · rfl
  · split
    · rfl
    · rfl

theorem outline_openWindow (w : DeltaWriter) (size : Nat) :
    w.outline.openWindow size = (w.openWindow size).map id outline :=
  w.outline_openSegment _

theorem outline_openTargetWindow (w : DeltaWriter) (position length : Nat) :
    w.outline.openTargetWindow position length =
      (w.openTargetWindow position length).map id outline := by
  have opens := w.outline_openSegment (if length > 0 then .target position length else .none)
  simp only [OutlineWriter.openTargetWindow, openTargetWindow]
  split
  · rfl
  · exact opens

/-! ## Edits -/

theorem withoutData_putOpcode (w : DeltaWriter) (choice : OpcodeChoice) (size : Nat) :
    w.withoutData.putOpcode choice size = (w.putOpcode choice size).withoutData := by
  simp only [putOpcode]
  split
  · rfl
  · rfl

theorem withoutData_grow (w : DeltaWriter) (size : Nat) :
    w.withoutData.grow size = (w.grow size).map id withoutData := by
  by_cases long : w.targetLength + size > maxField
  · simp only [grow, if_pos long]
    exact if_pos long
  · simp only [grow, if_neg long]
    exact if_neg long

theorem withoutData_write {finish finish' : DeltaWriter → DeltaWriter}
    (finishes : ∀ v : DeltaWriter, v.interleaved = w.interleaved →
      finish' v.withoutData = (finish v).withoutData) :
    w.withoutData.write instruction size mode finish' =
      (w.write instruction size mode finish).map id withoutData := by
  simp only [write, choose_withoutData]
  split
  · next choice _ =>
    obtain ⟨instructions, lastOpcode, -, -, put⟩ := w.putOpcode_eq choice size
    rw [withoutData_putOpcode, finishes _ (by rw [put]), withoutData_grow]
  · rfl

theorem data_grow (w : DeltaWriter) (size : Nat) : (w.grow size).2.data = w.data := by
  simp only [grow]
  split
  · rfl
  · rfl

theorem data_write {finish : DeltaWriter → DeltaWriter} {data : Array UInt8}
    (finishes : ∀ v : DeltaWriter, v.interleaved = w.interleaved → v.data = w.data →
      (finish v).data = data) :
    (w.write instruction size mode finish).2.data =
      if (w.choose instruction size mode).isSome then data else w.data := by
  simp only [write]
  split
  · next choice chosen =>
    obtain ⟨instructions, lastOpcode, -, -, put⟩ := w.putOpcode_eq choice size
    rw [data_grow, finishes _ (by rw [put]) (by rw [put]), chosen]
    rfl
  · next chosen =>
    rw [chosen]
    rfl

theorem putData_standard (standard : w.interleaved = false) (bytes : List UInt8) :
    w.putData bytes = { w with data := w.data ++ bytes } := by
  rw [putData, if_neg (by rw [standard]; exact Bool.false_ne_true)]

theorem data_putAddress (standard : w.interleaved = false) (bytes : List UInt8) :
    (w.putAddress bytes).data = w.data := by
  rw [putAddress, if_neg (by rw [standard]; exact Bool.false_ne_true)]

theorem withoutData_putAddress (w : DeltaWriter) (bytes : List UInt8) :
    w.withoutData.putAddress bytes = (w.putAddress bytes).withoutData := by
  cases layout : w.interleaved with
  | true =>
    rw [putAddress, putAddress, if_pos layout]
    exact if_pos layout
  | false =>
    have standard : ¬w.interleaved = true := by
      rw [layout]
      exact Bool.false_ne_true
    rw [putAddress, putAddress, if_neg standard]
    exact if_neg standard

theorem data_writeLiteral (standard : w.interleaved = false) (literal : List UInt8) :
    (w.write instruction size mode fun v => v.putData literal).2.data =
      if (w.choose instruction size mode).isSome then w.data ++ literal else w.data :=
  data_write fun v same data => by rw [putData_standard (same.trans standard), data]

theorem outline_writeLiteral (standard : w.interleaved = false) (literal : List UInt8) :
    w.outline.writeLiteral instruction size literal.length =
      (w.write instruction size 0 fun v => v.putData literal).map id outline := by
  have data := @data_writeLiteral w instruction size 0 standard literal
  have rest := @withoutData_write w instruction size 0 (fun v => v.putData literal) id
    fun v same => by
      rw [putData_standard (same.trans standard)]
      rfl
  rw [OutlineWriter.writeLiteral, base_outline, choose_withoutData, rest]
  refine Prod.ext rfl ?_
  simp only [Prod.map_snd, outline, data]
  split
  · rw [← Array.length_toList, ← Array.length_toList, Array.toList_appendList, List.length_append]
  · rfl

theorem outline_writeAdd (standard : w.interleaved = false) (literal : List UInt8) :
    w.outline.writeAdd literal.length = (w.writeAdd literal).map id outline := by
  simp only [OutlineWriter.writeAdd, writeAdd]
  split
  · rfl
  · exact outline_writeLiteral standard literal

theorem withoutData_writeCopy (w : DeltaWriter) (address size : Nat) :
    w.withoutData.writeCopy address size = (w.writeCopy address size).map id withoutData := by
  by_cases field : address > maxField
  · simp only [writeCopy, if_pos field]
    rfl
  · by_cases beyond : address ≥ w.segment.length + w.targetLength
    · simp only [writeCopy, if_neg field, if_pos beyond]
      exact if_pos beyond
    · simp only [writeCopy, if_neg field, if_neg beyond]
      refine (if_neg beyond).trans ?_
      exact @withoutData_write { w with cache := _ } _ _ _ _ _ fun v _ => v.withoutData_putAddress _

theorem data_writeCopy (standard : w.interleaved = false) (address size : Nat) :
    (w.writeCopy address size).2.data = w.data := by
  simp only [writeCopy]
  split
  · rfl
  · split
    · rfl
    · rw [@data_write { w with cache := _ } _ _ _ _ w.data fun v same data => by
        rw [data_putAddress (same.trans standard), data]]
      exact ite_self _

theorem outline_writeCopy (standard : w.interleaved = false) (address size : Nat) :
    w.outline.after (w.withoutData.writeCopy address size) =
      (w.writeCopy address size).map id outline := by
  rw [withoutData_writeCopy]
  refine Prod.ext rfl ?_
  simp only [OutlineWriter.after, Prod.map_snd, outline, data_writeCopy standard]

/-- The outline gives the answer that the writer gives, and is the outline of what the writer becomes. -/
theorem outline_edit (standard : w.interleaved = false) (e : Edit) :
    w.outline.edit e.outline = (w.edit e).map id outline := by
  simp only [OutlineWriter.edit, edit, inWindow, Edit.size_outline, base_outline, state_withoutData]
  cases w.state with
  | writing =>
    by_cases empty : e.size = 0
    · simp only [if_pos empty]
      rfl
    · simp only [if_neg empty]
      cases e with
      | add literal => exact outline_writeAdd standard literal
      | copy address size => exact outline_writeCopy standard address size
      | run size byte => exact outline_writeLiteral standard [byte]
  | idle => rfl
  | finished => rfl

theorem data_edit (standard : w.interleaved = false) (e : Edit) :
    (w.edit e).2.data = w.data ∨ (w.edit e).2.data = w.data ++ e.literals := by
  have literal (instruction : UInt8) (size : Nat) (literals : List UInt8) :
      (w.write instruction size 0 fun v => v.putData literals).2.data = w.data ∨
        (w.write instruction size 0 fun v => v.putData literals).2.data = w.data ++ literals := by
    rw [data_writeLiteral standard]
    split
    · exact .inr rfl
    · exact .inl rfl
  simp only [edit, inWindow]
  split
  · split
    · exact .inl rfl
    · cases e with
      | add literals =>
        simp only [writeAdd]
        split
        · exact .inl rfl
        · exact literal _ _ literals
      | copy address size => exact .inl (data_writeCopy standard address size)
      | run size byte => exact literal _ _ [byte]
  · exact .inl rfl
  · exact .inl rfl

theorem outline_edits (standard : w.interleaved = false) (es : List Edit) :
    w.outline.edits (es.map Edit.outline) = (w.edits es).map id outline := by
  induction es generalizing w with
  | nil => rfl
  | cons e rest ih =>
    have kept := (w.persists_edit e).interleaved
    simp only [List.map_cons, OutlineWriter.edits, edits, outline_edit standard e]
    generalize w.edit e = result at kept ⊢
    rcases result with ⟨_ | ⟨⟩, w₁⟩
    · rfl
    · exact ih (kept.trans standard)

theorem outline_setChecksum (w : DeltaWriter) (n : Nat) :
    w.outline.setChecksum n = (w.setChecksum n).outline :=
  rfl

/-! ## Closing -/

/-- A window from its two parts and the literal bytes between them. -/
def fillIn (literals : List UInt8) : Option OutlineWriter.Parts → List UInt8
  | none => []
  | some (front, back) => front ++ (literals ++ back)

theorem windowHeader_outline (w : DeltaWriter) :
    w.windowHeader = (checkLength .dataSectionLength w.data.size).bind fun data =>
      w.withoutData.windowHeader.map fun header =>
        { header with sections := { header.sections with data } } := by
  have none : checkLength .dataSectionLength w.withoutData.data.size = .ok 0 := rfl
  simp only [windowHeader, none, instructions_withoutData, addresses_withoutData, bind, Except.bind]
  cases checkLength .dataSectionLength w.data.size with
  | error error => rfl
  | ok data =>
    cases checkLength .instructionSectionLength w.instructions.size with
    | error error => rfl
    | ok instructions =>
      cases checkLength .addressSectionLength w.addresses.size with
      | error error => rfl
      | ok addresses => rfl

/-- The two parts are the window but for its data section. -/
theorem windowBytes_outline (w : DeltaWriter) :
    w.windowBytes = w.outline.windowParts.map (fillIn w.data.toList) := by
  by_cases empty : (w.instructions.isEmpty && w.checksum.isNone) = true
  · have parts : w.outline.windowParts = .ok none := if_pos empty
    rw [windowBytes, if_pos empty, parts]
    rfl
  · have parts : w.outline.windowParts = _ := if_neg empty
    rw [windowBytes, if_neg empty, parts, windowHeader_outline]
    simp only [dataLength_outline, base_outline, bind, Except.bind]
    cases checkLength .dataSectionLength w.data.size with
    | error error => rfl
    | ok data =>
      cases w.withoutData.windowHeader with
      | error error => rfl
      | ok header => rfl

/-- Closing a window is closing its outline, and putting the literal bytes between the two parts. -/
theorem closeWindow_outline (w : DeltaWriter) :
    w.closeWindow.1 = w.outline.closeWindow.1.map (fillIn w.data.toList) ∧
      w.closeWindow.2.outline = w.outline.closeWindow.2 := by
  simp only [closeWindow, OutlineWriter.closeWindow, base_outline, state_withoutData,
    windowBytes_outline]
  cases w.state with
  | writing => exact ⟨rfl, rfl⟩
  | idle => exact ⟨rfl, rfl⟩
  | finished => exact ⟨rfl, rfl⟩

theorem outline_finish (w : DeltaWriter) : w.outline.finish = w.finish.map id outline := by
  simp only [OutlineWriter.finish, finish, base_outline, state_withoutData]
  cases w.state with
  | writing => rfl
  | idle => rfl
  | finished => rfl

end DeltaWriter

end DeltaCoding
