import DeltaCoding.Inspect
import DeltaCoding.Proofs.Writer.Closing

/-!
# What is described of a written window

A window that has been written for a target is described as one window of the target's length and of
the writer's layout, whatever follows it, and its instructions are counted with as many bytes as the
target has (`DeltaWriter.describes_target`).

The count goes through the opcodes in the way in which a decoder does, but without a cache: how many
bytes an inline address takes is told from its mode alone. That is enough wherever a decoder reads an
address there (`Instruction.skips_address`).
-/

namespace DeltaCoding

theorem Parser.discard_ok {α : Type} {p : Parser α} {c c' : Cursor} {a : α}
    (h : p c = .ok (a, c')) : (discard p : Parser Unit) c = .ok ((), c') := by
  simp only [discard, Functor.discard, Functor.mapConst, Function.comp, StateT.map, bind, Except.bind,
    h]
  rfl

namespace InstructionCounts

/-- The number of target bytes that the instructions make. -/
def total (counts : InstructionCounts) : Nat :=
  counts.addBytes + counts.copyBytes + counts.runBytes

theorem total_add (counts : InstructionCounts) (instruction : Instruction) :
    (counts.add instruction).total = counts.total + instruction.size := by
  cases instruction with
  | add size =>
    simp only [total, add, Instruction.size]
    omega
  | run size =>
    simp only [total, add, Instruction.size]
    omega
  | copy size mode =>
    simp only [total, add, Instruction.size]
    omega

end InstructionCounts

/-! ## Inline data and addresses -/

theorem AddressMode.firstSameMode_le_iff {sizes : CacheSizes} {mode : Nat}
    {addressMode : AddressMode} (h : ofNumber? sizes mode = some addressMode) :
    sizes.firstSameMode ≤ mode ↔ ∃ page, addressMode = same page := by
  have number {other : AddressMode} (small : mode < sizes.firstSameMode)
      (isNumber : ∀ page, other ≠ same page) :
      sizes.firstSameMode ≤ mode ↔ ∃ page, other = same page := by
    constructor
    · omega
    · rintro ⟨page, equal⟩
      exact absurd equal (isNumber page)
  have first : 2 ≤ sizes.firstSameMode := Nat.le_add_right 2 sizes.near
  rw [ofNumber?] at h
  split at h
  · cases h
  · split at h
    · cases h
      exact number (by omega) fun page equal => by cases equal
    · split at h
      · cases h
        exact number (by omega) fun page equal => by cases equal
      · split at h
        · cases h
          exact number (by omega) fun page equal => by cases equal
        · next large =>
          cases h
          constructor
          · intro _
            exact ⟨_, rfl⟩
          · intro _
            omega

namespace Instruction

variable {cache cache' : AddressCache} {here : Nat} {e : Edit} {instruction : Instruction}
  {bytes : SectionBytes}

theorem skips_address {mode address : Nat} {c c' : Cursor} (size : Nat)
    (h : cache.decode here mode c = .ok ((address, cache'), c')) :
    (copy size mode).skipInline cache.sizes.firstSameMode c = .ok ((), c') := by
  obtain ⟨addressMode, numbered, read, -⟩ := AddressCache.decode_mode h
  have isSame := AddressMode.firstSameMode_le_iff numbered
  rw [skipInline]
  split
  · next large =>
    obtain ⟨page, rfl⟩ := isSame.1 large
    obtain ⟨place, c₁, byte, there⟩ := Parser.bind_eq_ok read
    cases there
    exact Parser.discard_ok byte
  · next small =>
    have isNumber (page : Nat) (h : addressMode = .same page) : False :=
      small (isSame.2 ⟨page, h⟩)
    rw [AddressCache.readAddress_number isNumber] at read
    obtain ⟨value, c₁, number, named⟩ := Parser.bind_eq_ok read
    cases resolved : cache.resolve? here addressMode value with
    | none =>
      rw [resolved] at named
      cases named
    | some _ =>
      rw [resolved] at named
      cases named
      exact Parser.discard_ok number

theorem skips_supplies (supplies : Supplies true cache here e instruction bytes cache') :
    (instruction.skipInline cache.sizes.firstSameMode).Reads bytes.instructions () := by
  intro c c' takes
  cases supplies with
  | add literal => exact Parser.discard_ok (Parser.reads_bytes literal c c' takes)
  | run size byte => exact Parser.discard_ok (Parser.reads_byte byte c c' takes)
  | copy size before nonempty names => exact skips_address size (names c c' takes)

end Instruction

theorem Supplies.sizes {interleaved : Bool} {cache cache' : AddressCache} {here : Nat} {e : Edit}
    {instruction : Instruction} {bytes : SectionBytes}
    (supplies : Supplies interleaved cache here e instruction bytes cache') :
    cache'.sizes = cache.sizes := by
  cases supplies with
  | add literal => rfl
  | run size byte => rfl
  | @copy address mode bytes _ size before nonempty names =>
    obtain ⟨-, rfl⟩ := AddressCache.decode_ok (names _ _ (Cursor.takes_append 0 bytes []))
    rfl

theorem Slot.Carries.sizes {slot : Slot} {interleaved : Bool} {cache cache' : AddressCache}
    {here : Nat} {e : Edit} {bytes : SectionBytes}
    (carries : slot.Carries interleaved cache here e bytes cache') : cache'.sizes = cache.sizes := by
  obtain ⟨_, _, _, _, _, _, supplies⟩ := carries
  exact supplies.sizes

theorem Makes.sizes {table : CodeTable} {interleaved : Bool} {sizes : CacheSizes}
    {source out : Array UInt8} {bytes : SectionBytes} {cache : AddressCache}
    (makes : Makes table interleaved sizes source out bytes cache) : cache.sizes = sizes := by
  induction makes with
  | none => rfl
  | single before stands carries ih => exact carries.sizes.trans ih
  | double before stands carries carries' ih => exact carries'.sizes.trans (carries.sizes.trans ih)

theorem Supplies.separate {cache cache' : AddressCache} {here : Nat} {e : Edit}
    {instruction : Instruction} {bytes : SectionBytes}
    (supplies : Supplies false cache here e instruction bytes cache') : bytes.instructions = [] := by
  cases supplies <;> rfl

/-! ## Counting -/

theorem InstructionReader.next_nil {reader : InstructionReader} (pending : reader.pending = none)
    (offset : Nat) : (reader.next ⟨offset, []⟩).1 = .ok none := by
  have fetched : fetch reader.table none ⟨offset, []⟩ = ⟨.ok none, none, ⟨offset, []⟩⟩ := by
    rw [fetch]
    split
    · rfl
    · next nothing => cases nothing
  simp only [next, pending, fetched]

namespace WindowSummary

variable {table : CodeTable} {firstSameMode : Nat} {interleaved : Bool} {cache cache' : AddressCache}
  {reader reader' : InstructionReader} {pending waiting : Option Slot} {slot : Slot}
  {counts : InstructionCounts} {instruction : Instruction} {c c₁ c₂ : Cursor}

theorem count_end (call : (reader.next c).1 = .ok none) :
    count firstSameMode interleaved reader c counts = .ok counts := by
  rw [count]
  split
  · next call' => rw [call'] at call; cases call
  · rfl
  · next call' => rw [call'] at call; cases call

theorem count_some (call : reader.next c = (.ok (some instruction), reader', c₁))
    (inline : if interleaved then instruction.skipInline firstSameMode c₁ = .ok ((), c₂)
      else c₂ = c₁) :
    count firstSameMode interleaved reader c counts =
      count firstSameMode interleaved reader' c₂ (counts.add instruction) := by
  rw [count]
  split
  · next call' => rw [call] at call'; cases call'
  · next call' => rw [call] at call'; cases call'
  · next call' =>
    rw [call] at call'
    cases call'
    cases interleaved with
    | false =>
      obtain rfl : c₂ = c₁ := inline
      rfl
    | true =>
      have inline : instruction.skipInline firstSameMode c₁ = .ok ((), c₂) := inline
      simp only [if_true]
      split
      · next inline' => rw [inline] at inline'; cases inline'
      · next inline' => rw [inline] at inline'; cases inline'; rfl

/-- The count comes from one cursor to another, and from one slot that waits to another, with `size`
target bytes in between. -/
def Advances (table : CodeTable) (firstSameMode : Nat) (interleaved : Bool) (pending : Option Slot)
    (c : Cursor) (size : Nat) (waiting : Option Slot) (c' : Cursor) : Prop :=
  ∀ (reader : InstructionReader) (counts : InstructionCounts), reader.table = table →
    reader.pending = pending → ∃ reader' counts', count firstSameMode interleaved reader c counts =
        count firstSameMode interleaved reader' c' counts' ∧
      reader'.table = table ∧ reader'.pending = waiting ∧ counts'.total = counts.total + size

theorem Advances.refl (table : CodeTable) (firstSameMode : Nat) (interleaved : Bool)
    (pending : Option Slot) (c : Cursor) :
    Advances table firstSameMode interleaved pending c 0 pending c :=
  fun reader counts table pending => ⟨reader, counts, rfl, table, pending, rfl⟩

theorem Advances.trans {next : Option Slot} {size size' : Nat}
    (first : Advances table firstSameMode interleaved pending c size waiting c₁)
    (second : Advances table firstSameMode interleaved waiting c₁ size' next c₂) :
    Advances table firstSameMode interleaved pending c (size + size') next c₂ := by
  intro reader counts table pending
  obtain ⟨reader₁, counts₁, counted₁, table₁, pending₁, total₁⟩ := first reader counts table pending
  obtain ⟨reader₂, counts₂, counted₂, table₂, pending₂, total₂⟩ :=
    second reader₁ counts₁ table₁ pending₁
  exact ⟨reader₂, counts₂, counted₁.trans counted₂, table₂, pending₂, by omega⟩

theorem advances_carries {here : Nat} {e : Edit} {opcodes : List UInt8} {part : SectionBytes}
    (offers : InstructionReader.Offers table pending opcodes slot waiting)
    (carries : slot.Carries interleaved cache here e part cache')
    (takes : c.Takes (opcodes ++ part.instructions) c₂) :
    Advances table cache.sizes.firstSameMode interleaved pending c e.size waiting c₂ := by
  rintro reader counts rfl rfl
  obtain ⟨sizeBytes, instruction, supplied, rfl, -, reads, supplies⟩ := carries
  rw [SectionBytes.instructions_append, SectionBytes.code, ← List.append_assoc] at takes
  obtain ⟨c₁, code, rest⟩ := takes.split
  have fetched := offers sizeBytes instruction reads c c₁ code
  have call := @InstructionReader.next_fetched reader c (by rw [fetched]; intro h; cases h)
  rw [fetched] at call
  refine ⟨_, counts.add instruction, count_some call ?_, rfl, rfl, ?_⟩
  · cases interleaved with
    | false =>
      rw [supplies.separate] at rest
      exact rest.unique (.refl c₁)
    | true => exact Instruction.skips_supplies supplies c₁ c₂ rest
  · rw [InstructionCounts.total_add, supplies.size_eq]

theorem advances_makes {sizes : CacheSizes} {source out : Array UInt8} {bytes : SectionBytes}
    (makes : Makes table interleaved sizes source out bytes cache)
    (takes : c.Takes bytes.instructions c₁) :
    Advances table sizes.firstSameMode interleaved none c out.size none c₁ := by
  -- By what has been made so far, as a decoder goes through it.
  induction makes generalizing c₁ with
  | none =>
    obtain rfl := takes.unique (.refl c)
    exact .refl _ _ _ _ _
  | single before stands carries ih =>
    rw [SectionBytes.instructions_append] at takes
    obtain ⟨c₂, takes, last⟩ := takes.split
    have one := advances_carries (InstructionReader.offers_single stands) carries last
    rw [before.sizes] at one
    rw [Edit.size_replay]
    exact (ih takes).trans one
  | double before stands carries carries' ih =>
    rw [SectionBytes.instructions_append] at takes
    obtain ⟨c₂, takes, last⟩ := takes.split
    rw [SectionBytes.instructions_append, SectionBytes.instructions_append, ← List.append_assoc]
      at last
    obtain ⟨c₃, first, second⟩ := last.split
    have one := advances_carries (InstructionReader.offers_double stands carries'.isNoop) carries first
    have other := advances_carries (InstructionReader.offers_waiting table _) carries' second
    rw [carries.sizes] at other
    rw [before.sizes] at one other
    rw [Edit.size_replay, Edit.size_replay]
    exact ((ih takes).trans one).trans other

theorem count_makes {sizes : CacheSizes} {source out : Array UInt8} {bytes : SectionBytes}
    {offset : Nat} (makes : Makes table interleaved sizes source out bytes cache)
    (takes : c.Takes bytes.instructions ⟨offset, []⟩) :
    ∃ counts, count sizes.firstSameMode interleaved (.ofTable table) c {} = .ok counts ∧
      counts.total = out.size := by
  obtain ⟨reader, counts, counted, -, pending, total⟩ :=
    advances_makes makes takes (.ofTable table) {} rfl rfl
  exact ⟨counts, counted.trans (count_end (InstructionReader.next_nil pending offset)),
    total.trans (Nat.zero_add _)⟩

/-! ## Windows -/

/-- Where a window starts, how long its target is, whether it is interleaved, and how many bytes its
instructions make. -/
def outline (window : WindowSummary) : Nat × Nat × Bool × Nat :=
  (window.offset, window.header.targetLength, window.interleaved, window.counts.total)

/-- Behind `decoded` target bytes, the bytes are described as one window for a target of `length` bytes,
wherever they stand and whatever follows them. -/
def Opcodes.Describes (opcodes : Opcodes) (version : Version) (decoded : Nat) (bytes : List UInt8)
    (interleaved : Bool) (length : Nat) : Prop :=
  ∀ (offset : Nat) (rest : List UInt8), ∃ window,
    describe version opcodes decoded ⟨offset, bytes ++ rest⟩ =
        .ok (window, ⟨offset + bytes.length, rest⟩) ∧
      window.outline = (offset, length, interleaved, length)

theorem isInterleaved_of_makes {header : WindowHeader} {version : Version} {sizes : CacheSizes}
    {source out : Array UInt8} {body : SectionBytes}
    (makes : Makes table interleaved sizes source out body cache) (nonempty : out ≠ #[])
    (describes : header.sections.Describes body)
    (extensions : interleaved = true → version.hasExtensions = true) :
    header.isInterleaved version = interleaved := by
  cases interleaved with
  | true =>
    exact (WindowHeader.isInterleaved_iff describes).2 ⟨extensions rfl, makes.stream⟩
  | false =>
    rw [Bool.eq_false_iff]
    intro layout
    obtain ⟨-, data, addresses⟩ := (WindowHeader.isInterleaved_iff describes).1 layout
    exact nonempty (makes.eq_none_of_empty data addresses).1

/-- A header and a body that makes a target are described as a window for the target. -/
theorem describes_makes {header : WindowHeader} {version : Version} {sizes : CacheSizes}
    {source out : Array UInt8} {body : SectionBytes} {decoded : Nat}
    (makes : Makes table interleaved sizes source out body cache) (nonempty : out ≠ #[])
    (targetLength : header.targetLength = out.size) (describes : header.sections.Describes body)
    (segment : header.segment.Within (UInt64.size - 1) decoded true) (fields : header.Fields)
    (extensions : interleaved = true ∨ header.sections.checksum.isSome = true →
      version.hasExtensions = true) :
    Opcodes.Describes ⟨table, sizes.firstSameMode⟩ version decoded (header.toBytes ++ body.toList)
      interleaved out.size := by
  intro offset rest
  have layout := isInterleaved_of_makes makes nonempty describes fun h => extensions (.inl h)
  obtain ⟨c, head, takes⟩ :=
    (Cursor.takes_append offset (header.toBytes ++ body.toList) rest).split
  obtain ⟨s, read, rfl⟩ := @WindowHeader.parse_toBytes header ⟨version, UInt64.size - 1, decoded, true⟩
    (fun _ => .ok ()) ⟨segment, fields.targetLength, rfl⟩ fields (fun h => extensions (.inr h)) _ _ head
  have enough := takes.has
  have behind := takes.skip
  rw [← describes.total] at enough behind
  obtain ⟨c₁, data, others⟩ := takes.split
  obtain ⟨c₂, instructions, -⟩ := others.split
  obtain ⟨counts, counted, total⟩ := count_makes makes instructions.window
  refine ⟨⟨offset, header, interleaved, counts⟩, ?_, ?_⟩
  · simp only [describe, parseHeader, read, enough, if_true, behind, layout]
    rw [describes.data, data.skip, describes.instructions, counted]
  · simp only [outline, targetLength, total]

end WindowSummary

/-! ## Windows for targets -/

theorem SourceSegment.Within.widen {segment : SourceSegment} {dictionarySize size decoded : Nat}
    {allowTarget : Bool} (within : segment.Within dictionarySize decoded allowTarget)
    (wider : dictionarySize ≤ size) : segment.Within size decoded allowTarget := by
  cases segment with
  | none => trivial
  | dictionary position length => exact Nat.le_trans within wider
  | target position length => exact within

namespace DeltaWriter

variable {w w' : DeltaWriter} {opening : Opening} {es : List Edit} {checked : Bool}
  {dictionary history target : Array UInt8} {bytes : List UInt8} {version : Version}

/-- What opcodes of the writer's windows are read with. -/
def opcodes (w : DeltaWriter) : WindowSummary.Opcodes :=
  ⟨w.table, w.cache.sizes.firstSameMode⟩

theorem describes_target (usable : w.Usable) (within : opening.Within dictionary history)
    (covers : Edit.Covers (opening.source dictionary history) target 0 es target.size)
    (small : target.size ≤ maxTarget) (nonempty : target ≠ #[])
    (wrote : w.writeTarget opening es checked target = (.ok bytes, w'))
    (addressable : dictionary.size < UInt64.size)
    (extensions : w.interleaved = true ∨ checked = true → version = .sdch) :
    w.opcodes.Describes version history.size bytes w.interleaved target.size := by
  obtain ⟨w₁, w₂, opened, written, closed⟩ := writeTarget_ok.1 wrote
  have ready := ready_target usable within opened covers written small checked
  generalize (if checked then w₂.setChecksum (Checksum.adler32 target.toList).toNat else w₂) = w₃
    at closed ready
  have figures (n : Nat) (present : n ∈ w₃.checksum) : n ≤ Varint.maxUInt32 :=
    ready.eq_checksum n present ▸ Varint.toNat_le_maxUInt32 _
  obtain ⟨header, described, short⟩ :=
    windowHeader_accepted ready.count ready.holds.field figures
  have fields :=
    fields_of_holds ready.holds ready.segment ready.fieldSegment figures described short
  obtain rfl := windowHeader_eq described
  have handedOut : bytes = w₃.header.toBytes ++ w₃.written.toList := by
    obtain ⟨-, empty⟩ | handedOut := eq_of_closeWindow (congrArg Prod.fst closed)
    · exact absurd (congrArg Array.toList empty) (ready.holds.makes.instructions_ne nonempty)
    · exact handedOut
  rw [handedOut, opcodes, ← ready.format.table, ← ready.format.sizes, ← ready.format.interleaved]
  refine WindowSummary.describes_makes ready.holds.makes nonempty ready.holds.targetLength
    ⟨rfl, rfl, rfl⟩ ?_ fields fun needs => ?_
  · rw [show w₃.header.segment = opening.segment from ready.segment]
    exact (Opening.within_segment within).widen (Nat.le_sub_one_of_lt addressable)
  · rw [extensions (ready.extensions needs)]
    rfl

end DeltaWriter

end DeltaCoding
