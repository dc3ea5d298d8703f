import DeltaCoding.Proofs.Window.RoundTrip

/-!
# What a complete window has carried out

`Spells` reads the bytes of a body as opcodes, and says which of their slots have been carried out as
which edits. A body that runs to its end stands behind bytes that spell what it has made
(`BodyState.Behind`), and a window that is complete has used them all up (`WindowDecoder.Spelt`).

The edits need not be all that the opcodes stand for. Opcodes behind the last target byte are refused
as excess data, but the second slot of the last opcode is not a byte of any section. It is dropped
together with the window, whatever it stands for.
-/

namespace DeltaCoding

namespace Entry

/-- The slots that stand for an instruction, in the order in which they are carried out. -/
def slots (entry : Entry) : List Slot :=
  [entry.first, entry.second].filter fun slot => !slot.isNoop

end Entry

namespace CodeTable

/-- The slots of opcodes that follow one another. -/
def slotsOf (table : CodeTable) (opcodes : List UInt8) : List Slot :=
  opcodes.flatMap fun opcode => (table.entry opcode).slots

@[simp] theorem slotsOf_nil (table : CodeTable) : table.slotsOf [] = [] := rfl

@[simp] theorem slotsOf_cons (table : CodeTable) (opcode : UInt8) (opcodes : List UInt8) :
    table.slotsOf (opcode :: opcodes) = (table.entry opcode).slots ++ table.slotsOf opcodes := rfl

@[simp] theorem slotsOf_append (table : CodeTable) (opcodes opcodes' : List UInt8) :
    table.slotsOf (opcodes ++ opcodes') = table.slotsOf opcodes ++ table.slotsOf opcodes' :=
  List.flatMap_append

end CodeTable

/-! ## Instructions and the bytes that they are taken from -/

namespace Slot

theorem ofSlot?_of_askable {slot : Slot} {maxMode : Nat}
    (askable : Askable maxMode slot.instruction slot.mode.toNat) (size : Nat) :
    Instruction.ofSlot? slot size ≠ none := by
  obtain ⟨instruction, slotSize, mode⟩ := slot
  change Askable maxMode instruction mode.toNat at askable
  simp only [Instruction.ofSlot?]
  generalize mode.toNat = number at askable
  cases askable <;> exact fun h => by cases h

theorem noop_of_parse {slot : Slot} {maxMode : Nat} (valid : slot.Valid maxMode) {c c' : Cursor}
    (h : slot.parse c = .ok (none, c')) : slot.isNoop = true ∧ c' = c := by
  cases noop : slot.isNoop with
  | true =>
    simp only [parse, noop, if_true] at h
    cases h
    exact ⟨rfl, rfl⟩
  | false =>
    simp only [parse, noop] at h
    obtain ⟨size, c₁, -, made⟩ := Parser.bind_eq_ok h
    exact absurd (congrArg Prod.fst (Except.ok.inj made))
      (ofSlot?_of_askable (valid.askable noop) size)

theorem effect_of_parse {slot : Slot} {c c' : Cursor} {instruction : Instruction}
    (h : slot.parse c = .ok (some instruction, c')) : slot.isNoop = false := by
  cases noop : slot.isNoop with
  | false => rfl
  | true =>
    simp only [parse, noop, if_true] at h
    cases h

end Slot

namespace InstructionReader

variable {table : CodeTable} {pending waiting : Option Slot} {slot : Slot} {c c₁ : Cursor}

/-- Behind `opcodes` and the slot that has waited, `slot` comes next, and `waiting` behind it. -/
inductive Next (table : CodeTable) : Option Slot → (opcodes : List UInt8) → (slot : Slot) →
    (waiting : Option Slot) → Prop where
  | waiting (slot : Slot) : Next table (some slot) [] slot none
  | first {opcode : UInt8} (effect : (table.entry opcode).first.isNoop = false) :
      Next table none [opcode] (table.entry opcode).first (secondSlot? (table.entry opcode))
  | later {opcode : UInt8} {opcodes : List UInt8} {slot : Slot} {waiting : Option Slot}
      (noop : (table.entry opcode).first.isNoop = true)
      (next : Next table (secondSlot? (table.entry opcode)) opcodes slot waiting) :
      Next table none (opcode :: opcodes) slot waiting

theorem slots_eq (entry : Entry) : entry.slots =
    (if entry.first.isNoop then [] else [entry.first]) ++ (secondSlot? entry).toList := by
  simp only [Entry.slots, secondSlot?, List.filter]
  cases entry.first.isNoop <;> cases entry.second.isNoop <;> rfl

theorem Next.slots {opcodes : List UInt8} (h : Next table pending opcodes slot waiting) :
    pending.toList ++ table.slotsOf opcodes = slot :: waiting.toList := by
  induction h with
  | waiting slot => rfl
  | first effect => simp [slots_eq, effect]
  | later noop next ih =>
    rw [← ih, CodeTable.slotsOf_cons, slots_eq, noop]
    rfl

/-- A slot that waits is the second one of an opcode of the table, and stands for something. -/
def Waits (table : CodeTable) (pending : Option Slot) : Prop :=
  ∀ slot ∈ pending, slot.isNoop = false ∧ ∃ opcode, (table.entry opcode).second = slot

theorem Waits.parse_ne_none {maxMode : Nat} (waits : Waits table (some slot))
    (valid : table.Valid maxMode) : slot.parse c ≠ .ok (none, c₁) := by
  intro parsed
  obtain ⟨effect, opcode, rfl⟩ := waits slot rfl
  have noop := (Slot.noop_of_parse (valid.second opcode) parsed).1
  rw [effect] at noop
  cases noop

theorem waits_secondSlot? (table : CodeTable) (opcode : UInt8) :
    Waits table (secondSlot? (table.entry opcode)) := by
  intro slot second
  simp only [secondSlot?, Option.mem_def] at second
  split at second
  · cases second
  · next effect =>
    cases second
    exact ⟨by simpa using effect, opcode, rfl⟩

theorem Next.waits {opcodes : List UInt8} (h : Next table pending opcodes slot waiting) :
    Waits table waiting := by
  induction h with
  | waiting slot => exact fun _ h => by cases h
  | first effect => exact waits_secondSlot? _ _
  | later noop next ih => exact ih

theorem nextSlot?_cases (h : nextSlot? table pending c = some (slot, waiting, c₁)) :
    (pending = some slot ∧ waiting = none ∧ c₁ = c) ∨
      ∃ opcode, pending = none ∧ c.Takes [opcode] c₁ ∧ slot = (table.entry opcode).first ∧
        waiting = secondSlot? (table.entry opcode) := by
  unfold nextSlot? at h
  split at h
  · cases h
    exact .inl ⟨rfl, rfl, rfl⟩
  · split at h
    · cases h
    · next opcode rest hc =>
      cases h
      exact .inr ⟨opcode, rfl, ⟨hc, rfl⟩, rfl, rfl⟩

/-- An instruction that is fetched is the next slot that stands for something, and nothing else has
been taken but the opcodes up to it and its size. -/
theorem next_of_fetch {maxMode : Nat} (valid : table.Valid maxMode) (waits : Waits table pending)
    {instruction : Instruction} (h : (fetch table pending c).outcome = .ok (some instruction)) :
    ∃ opcodes sizeBytes slot, Next table pending opcodes slot (fetch table pending c).pending ∧
      slot.parse.Reads sizeBytes (some instruction) ∧
      c.Takes (opcodes ++ sizeBytes) (fetch table pending c).cursor := by
  -- Along the slots that are passed over. None of them leaves anything behind.
  fun_induction fetch table pending c with
  | case1 => cases h
  | case2 => cases h
  | case3 pending c slot waiting c₁ next instruction' c₂ parsed =>
    cases h
    obtain ⟨sizeBytes, size, reads⟩ := slot.local_parse.ok parsed
    rcases nextSlot?_cases next with ⟨rfl, rfl, rfl⟩ | ⟨opcode, rfl, takes, rfl, rfl⟩
    · exact ⟨[], sizeBytes, slot, .waiting slot, reads, size⟩
    · exact ⟨[opcode], sizeBytes, _, .first (Slot.effect_of_parse parsed), reads, takes.trans size⟩
  | case4 pending c slot waiting c₁ next c₂ parsed ih =>
    rcases nextSlot?_cases next with ⟨rfl, rfl, rfl⟩ | ⟨opcode, rfl, takes, rfl, rfl⟩
    · exact absurd parsed (waits.parse_ne_none valid)
    · obtain ⟨noop, rfl⟩ := Slot.noop_of_parse (valid.first opcode) parsed
      obtain ⟨opcodes, sizeBytes, slot, next, reads, rest⟩ := ih (waits_secondSlot? _ _) h
      exact ⟨opcode :: opcodes, sizeBytes, slot, .later noop next, reads, takes.trans rest⟩

theorem next_of_taken {maxMode : Nat} {reader reader' : InstructionReader} {c c' : Cursor}
    {instruction : Instruction} (valid : reader.table.Valid maxMode)
    (waits : Waits reader.table reader.pending)
    (h : reader.next c = (.ok (some instruction), reader', c')) :
    ∃ opcodes sizeBytes slot, Next reader.table reader.pending opcodes slot reader'.pending ∧
      slot.parse.Reads sizeBytes (some instruction) ∧ c.Takes (opcodes ++ sizeBytes) c' := by
  obtain ⟨taken, rfl, rfl⟩ := fetched_of_next h
  exact next_of_fetch valid waits taken

end InstructionReader

/-! ## Edits and the bytes that they are read from -/

namespace Sections

variable {sections between sections' : Sections} {bytes more : SectionBytes} {c : Cursor}

theorem Takes.trans (h : sections.Takes bytes between) (h' : between.Takes more sections') :
    sections.Takes (bytes ++ more) sections' := by
  cases sections with
  | separate _ _ _ =>
    obtain ⟨_, _, _, rfl, data, instructions, addresses⟩ := h.separate
    obtain ⟨_, _, _, rfl, data', instructions', addresses'⟩ := h'.separate
    exact ⟨data.trans data', instructions.trans instructions', addresses.trans addresses'⟩
  | interleaved _ =>
    obtain ⟨_, rfl, noData, noAddresses, stream⟩ := h.interleaved
    obtain ⟨_, rfl, noData', noAddresses', stream'⟩ := h'.interleaved
    refine ⟨?_, ?_, stream.trans stream'⟩
    · rw [SectionBytes.data_append, noData, noData', List.append_nil]
    · rw [SectionBytes.addresses_append, noAddresses, noAddresses', List.append_nil]

theorem takes_withInstructions {bytes : List UInt8} (h : sections.instructions.Takes bytes c) :
    sections.Takes (.code bytes) (sections.withInstructions c) := by
  cases sections with
  | separate _ _ _ => exact ⟨.refl _, h, .refl _⟩
  | interleaved _ => exact ⟨rfl, rfl, h⟩

theorem takes_withData {bytes : List UInt8} (h : sections.data.Takes bytes c) :
    sections.Takes (.literal sections.isInterleaved bytes) (sections.withData c) := by
  cases sections with
  | separate _ _ _ => exact ⟨h, .refl _, .refl _⟩
  | interleaved _ => exact ⟨rfl, rfl, h⟩

theorem takes_withAddresses {bytes : List UInt8} (h : sections.addresses.Takes bytes c) :
    sections.Takes (.address sections.isInterleaved bytes) (sections.withAddresses c) := by
  cases sections with
  | separate _ _ _ => exact ⟨.refl _, .refl _, h⟩
  | interleaved _ => exact ⟨rfl, rfl, h⟩

end Sections

/-- How far the bytes of a body have been read: the opcodes among them, the slots that have been
carried out with the edits that they came to, the slot that waits, and the cache. -/
structure Spelling where
  opcodes : List UInt8
  executed : List (Slot × Edit)
  waiting : Option Slot
  bytes : SectionBytes
  cache : AddressCache

namespace Spelling

/-- What the edits make of the source. -/
def target (spelling : Spelling) (source : Array UInt8) : Array UInt8 :=
  Edit.replayAll source (spelling.executed.map Prod.snd)

/-- The size of all edits together. -/
def size (spelling : Spelling) : Nat :=
  spelling.executed.foldr (fun p rest => p.2.size + rest) 0

/-- Nothing has been read. -/
def none (sizes : CacheSizes) : Spelling :=
  ⟨[], [], .none, .none, .empty sizes⟩

end Spelling

/-- The bytes are the opcodes, each with what its slots leave open, as far as they have been carried
out. -/
inductive Spells (table : CodeTable) (interleaved : Bool) (sizes : CacheSizes)
    (source : Array UInt8) : Spelling → Prop where
  | none : Spells table interleaved sizes source (.none sizes)
  | next {spelling : Spelling} {opcodes sizeBytes : List UInt8} {slot : Slot}
      {waiting : Option Slot} {instruction : Instruction} {e : Edit} {supplied : SectionBytes}
      {cache : AddressCache} (before : Spells table interleaved sizes source spelling)
      (next : InstructionReader.Next table spelling.waiting opcodes slot waiting)
      (reads : slot.parse.Reads sizeBytes (some instruction))
      (supplies : Supplies interleaved spelling.cache
        (source.size + (spelling.target source).size) e instruction supplied cache) :
      Spells table interleaved sizes source ⟨spelling.opcodes ++ opcodes,
        spelling.executed ++ [(slot, e)], waiting,
        spelling.bytes ++ (.code (opcodes ++ sizeBytes) ++ supplied), cache⟩

namespace Spells

variable {table : CodeTable} {interleaved : Bool} {sizes : CacheSizes} {source : Array UInt8}
  {spelling : Spelling}

theorem slots (h : Spells table interleaved sizes source spelling) :
    table.slotsOf spelling.opcodes = spelling.executed.map Prod.fst ++ spelling.waiting.toList := by
  induction h with
  | none => rfl
  | next before next reads supplies ih =>
    rw [CodeTable.slotsOf_append, ih, List.append_assoc, next.slots]
    simp

theorem waits (h : Spells table interleaved sizes source spelling) :
    InstructionReader.Waits table spelling.waiting := by
  cases h with
  | none => exact fun _ h => by cases h
  | next before next reads supplies => exact next.waits

end Spells

theorem Spelling.size_target (spelling : Spelling) (source : Array UInt8) :
    (spelling.target source).size = spelling.size := by
  have behind (es : List (Slot × Edit)) (out : Array UInt8) :
      ((es.map Prod.snd).foldl (Edit.replay source) out).size =
        out.size + es.foldr (fun p rest => p.2.size + rest) 0 := by
    induction es generalizing out with
    | nil => rfl
    | cons p es ih =>
      simp only [List.map_cons, List.foldl_cons, List.foldr_cons]
      rw [ih, Edit.size_replay, Nat.add_assoc]
  exact (behind spelling.executed #[]).trans (Nat.zero_add _)

/-! ## Carrying out a body -/

namespace BodyState

variable {s s' : BodyState} {context : BodyContext} {history out : Array UInt8}
  {table : CodeTable} {interleaved : Bool} {sizes : CacheSizes} {start : Sections}

/-- An instruction that is carried out is supplied with bytes, and makes the edit that they make of
it. -/
theorem supplies_of_done (stands : s.Stands context history out) {instruction : Instruction}
    (h : s.perform context instruction = (s', .done)) :
    ∃ e bytes, s.sections.Takes bytes s'.sections ∧
      Supplies s.sections.isInterleaved s.cache ((context.space.source history).size + out.size) e
        instruction bytes s'.cache := by
  cases instruction with
  | add size =>
    simp only [perform, performAdd] at h
    split at h
    · next bytes c read =>
      cases h
      obtain ⟨rfl, takes⟩ := Parser.takes_bytes read
      exact ⟨.add bytes, _, Sections.takes_withData takes, .add bytes⟩
    · cases h
  | run size =>
    simp only [perform, performRun] at h
    split at h
    · next byte c read =>
      cases h
      exact ⟨.run size byte, _, Sections.takes_withData (Parser.takes_byte read), .run size byte⟩
    · cases h
  | copy size mode =>
    simp only [perform, performCopy, stands.produced] at h
    split at h
    · next address cache c read =>
      rw [← AddressSpace.size_source stands.within stands.starts] at read
      obtain ⟨bytes, takes, reads⟩ := (AddressCache.local_decode _ _ _).ok read
      split at h
      · cases h
        exact ⟨.copy address size, _, Sections.takes_withAddresses takes,
          .copy size (AddressCache.decode_ok read).1 (AddressCache.nonempty_of_reads reads) reads⟩
      · cases h
    · cases h
    · cases h

/-- From `start` on, the body has read bytes that spell what it has made. -/
def Behind (s : BodyState) (context : BodyContext) (history : Array UInt8) (table : CodeTable)
    (interleaved : Bool) (sizes : CacheSizes) (start : Sections) : Prop :=
  ∃ spelling, Spells table interleaved sizes (context.space.source history) spelling ∧
    start.Takes spelling.bytes s.sections ∧
    s.Equipped table spelling.waiting spelling.cache interleaved ∧
    s.Stands context history (spelling.target (context.space.source history))

theorem executed_of_step (h : s.step context = .next s') : ∃ instruction reader c,
    s.reader.next s.sections.instructions = (.ok (some instruction), reader, c) ∧
      (s.afterRead reader c).perform context instruction = (s', .done) ∧
      context.space.windowStart ≤ s.target.size ∧ s.produced context ≠ context.targetLength ∧
      s.produced context + instruction.size ≤ context.targetLength := by
  simp only [step] at h
  split at h
  · cases h
  · next starts =>
    split at h
    · cases h
    · next unreached =>
      split at h
      · cases h
      · cases h
      · cases h
      · next instruction reader c read =>
        have produced : (s.afterRead reader c).produced context = s.produced context := rfl
        refine ⟨instruction, reader, c, read, ?_⟩
        simp only [execute, produced] at h
        split at h
        · cases h
        · split at h
          · cases h
          · split at h
            · next performed =>
              cases h
              exact ⟨performed, Nat.le_of_not_lt starts, unreached, by omega⟩
            · cases h
            · cases h

theorem behind_step {maxMode : Nat} (valid : table.Valid maxMode)
    (behind : s.Behind context history table interleaved sizes start)
    (h : s.step context = .next s') :
    s'.Behind context history table interleaved sizes start := by
  obtain ⟨spelling, spells, takes, ⟨rfl, waiting, cache, rfl⟩, stands⟩ := behind
  obtain ⟨instruction, reader, c, read, performed, -, -, -⟩ := executed_of_step h
  have table := InstructionReader.table_next s.reader s.sections.instructions
  rw [read] at table
  obtain ⟨opcodes, sizeBytes, slot, next, reads, opcode⟩ :=
    InstructionReader.next_of_taken valid (waiting ▸ spells.waits) read
  have after : (s.afterRead reader c).Stands context history
      (spelling.target (context.space.source history)) := ⟨stands.1, stands.2, stands.3⟩
  obtain ⟨e, supplied, rest, supplies⟩ := supplies_of_done after performed
  have made := congrArg Prod.fst (performed.symm.trans (perform_supplies after supplies rest))
  have reader_eq : s'.reader = reader := congrArg BodyState.reader made
  have layout := rest.layout
  rw [afterRead, Sections.isInterleaved_withInstructions] at supplies layout
  refine ⟨_, .next spells (waiting ▸ next) reads (cache ▸ supplies), ?_, ⟨?_, ?_, rfl, layout⟩,
    stands.within, stands.starts, ?_⟩
  · exact takes.trans ((Sections.takes_withInstructions opcode).trans rest)
  · rw [reader_eq]
    exact table
  · rw [reader_eq]
  · rw [congrArg BodyState.target made]
    simp only [Spelling.target, Edit.replayAll, List.map_append, List.foldl_append]
    rfl

theorem behind_run {maxMode : Nat} (valid : table.Valid maxMode)
    (behind : s.Behind context history table interleaved sizes start)
    (h : s.run context = (s', .complete)) :
    s'.Behind context history table interleaved sizes start ∧
      s'.produced context = context.targetLength := by
  -- Along the steps, the last of which carries out nothing.
  fun_induction run s context with
  | case1 s next stepped ih => exact ih (behind_step valid behind stepped) h
  | case2 s last ending stepped =>
    cases h
    obtain ⟨rfl, reached, -⟩ := reached_of_complete stepped
    exact ⟨behind, reached⟩

end BodyState

/-! ## Complete windows -/

theorem Cursor.Takes.of_window {c c' : Cursor} {bytes : List UInt8} {n : Nat}
    (h : (c.window n).Takes bytes c') (length : bytes.length = n) : c.Takes bytes (c.skip n) := by
  have whole : c.rest.take n = bytes ++ c'.rest := h.1
  have first := congrArg (List.take n) whole
  rw [List.take_take, Nat.min_self, ← length, List.take_left, length] at first
  exact ⟨by rw [← first]; exact (List.take_append_drop n c.rest).symm, by rw [length]; rfl⟩

theorem Cursor.Takes.of_window_used {c c' : Cursor} {bytes : List UInt8} {n : Nat}
    (h : (c.window n).Takes bytes c') (used : c'.remaining = 0) (there : n ≤ c.rest.length) :
    bytes.length = n ∧ c.Takes bytes (c.skip n) := by
  have length : (c.rest.take n).length = bytes.length + c'.rest.length := by
    rw [show c.rest.take n = bytes ++ c'.rest from h.1, List.length_append]
  rw [remaining] at used
  rw [List.length_take, Nat.min_eq_left there, used, Nat.add_zero] at length
  exact ⟨length.symm, h.of_window length.symm⟩

namespace WindowBody

theorem used_of_checkUsedUp {part : Section} {count : Nat} (h : checkUsedUp part count = .ok ()) :
    count = 0 := by
  simp only [checkUsedUp] at h
  split at h
  · cases h
  · next none => exact Nat.eq_zero_of_not_pos none

theorem used_of_checkSections {lengths : SectionLengths} {data instructions addresses : Cursor}
    (h : checkSections (.standard lengths) (.separate data instructions addresses) = .ok ()) :
    data.remaining = 0 ∧ instructions.remaining = 0 ∧ addresses.remaining = 0 := by
  simp only [checkSections, bind, Except.bind] at h
  split at h
  · cases h
  · next instructionsUsed =>
    split at h
    · cases h
    · next dataUsed =>
      exact ⟨used_of_checkUsedUp dataUsed, used_of_checkUsedUp instructionsUsed,
        used_of_checkUsedUp h⟩

end WindowBody

namespace WindowDecoder

variable {d : WindowDecoder} {context : WindowContext} {body : WindowBody} {c c' : Cursor}
  {history target : Array UInt8}

/-- What the source segment of a window holds. -/
def sourceOf (context : WindowContext) (header : WindowHeader) (history : Array UInt8) :
    Array UInt8 :=
  AddressSpace.source ⟨context.dictionary, header.segment, history.size⟩ history

/-- The bytes between `c` and `c'` are the body of the window. They spell edits that make its
target, which is as long as the header says. -/
structure Spelt (d : WindowDecoder) (context : WindowContext) (history : Array UInt8)
    (header : WindowHeader) (c c' : Cursor) (target : Array UInt8) (spelling : Spelling) : Prop where
  spells : Spells d.reader.table (header.isInterleaved d.version) d.cache.sizes
    (sourceOf context header history) spelling
  describes : header.sections.Describes spelling.bytes
  takes : c.Takes spelling.bytes.toList c'
  size : spelling.size = header.targetLength
  target : target = history ++ spelling.target (sourceOf context header history)

theorem complete_of_conclude {s : BodyState} {ending : BodyEnd} {start stop : Nat}
    (h : (d.conclude body s ending c).outcome = .ok (.complete start stop)) :
    ending = .complete ∧ WindowBody.checkSections body.layout s.sections = .ok () ∧
      body.checkChecksum s.target = .ok () ∧ (d.conclude body s ending c).target = s.target ∧
      start = body.windowStart ∧ stop = s.target.size := by
  simp only [conclude] at h ⊢
  split at h
  · cases h
  · cases h
  · cases h
  · split at h
    · cases h
    · next checked =>
      cases h
      simp only [WindowBody.checkComplete, bind, Except.bind] at checked
      split at checked
      · cases checked
      · next sections => exact ⟨rfl, sections, checked, rfl, rfl, rfl⟩

/-- The body behind a header has been completed in one call: its instructions have run to their end,
and what they have taken from the sections is all of the body. -/
structure Finished (d : WindowDecoder) (context : WindowContext) (history : Array UInt8)
    (header : WindowHeader) (c : Cursor) (progress : WindowProgress) (sections : Sections)
    (moreAvailable : Bool) (s : BodyState) : Prop where
  starts : sectionsAt? (d.enter header history.size).1.layout c = some sections
  layout : sections.isInterleaved = header.isInterleaved d.version
  run : ((d.enter header history.size).2.bodyState sections history).run
    (context.bodyContext (d.enter header history.size).1 moreAvailable) = (s, .complete)
  target : progress.target = s.target
  outcome : progress.outcome = .ok (.complete history.size s.target.size)
  checksum : (d.enter header history.size).1.checkChecksum s.target = .ok ()
  taken : ∀ bytes, sections.Takes bytes s.sections →
    header.sections.Describes bytes ∧ c.Takes bytes.toList progress.cursor

theorem finished_resumeInterleaved {header : WindowHeader}
    (interleaved : header.isInterleaved d.version = true) {start stop : Nat}
    (complete : ((d.enter header history.size).2.resumeInterleaved context
      (d.enter header history.size).1 header.sections.instructions c history).outcome =
        .ok (.complete start stop)) :
    ∃ sections moreAvailable s, d.Finished context history header c
      ((d.enter header history.size).2.resumeInterleaved context (d.enter header history.size).1
        header.sections.instructions c history) sections moreAvailable s := by
  obtain ⟨-, only⟩ := Bool.and_eq_true_iff.1 interleaved
  obtain ⟨noData, noAddresses⟩ := Bool.and_eq_true_iff.1 only
  rw [beq_iff_eq] at noData noAddresses
  have outcome := complete
  rw [resumeInterleaved_eq] at complete
  obtain ⟨ended, used, checksum, target, rfl, rfl⟩ := complete_of_conclude complete
  rw [← resumeInterleaved_eq] at target
  have inside := (consumed_le (reaches_runInterleaved (d.enter header history.size).2 context
    (d.enter header history.size).1 header.sections.instructions c history)).1
  refine ⟨_, _, _, ?_, ?_, Prod.ext rfl ended, target, outcome, checksum, ?_⟩
  · rw [layout_enter, interleaved]
    rfl
  · exact interleaved.symm
  · intro bytes takes
    rw [resumeInterleaved_eq, cursor_conclude]
    simp only [runInterleaved] at inside used ⊢
    generalize BodyState.run _ _ = run at *
    obtain ⟨⟨reader, cache, sections, target'⟩, ending⟩ := run
    cases sections with
    | separate _ _ _ => exact takes.elim
    | interleaved stream =>
      obtain ⟨data, addresses, stream⟩ := takes
      have consumed := stream.2
      have left := WindowBody.used_of_checkUsedUp used
      simp only [Sections.instructions, Cursor.window] at consumed left inside ⊢
      have length : bytes.instructions.length = header.sections.instructions := by omega
      have toList : bytes.toList = bytes.instructions := by
        rw [SectionBytes.toList, data, addresses, List.append_nil, List.nil_append]
      refine ⟨⟨?_, length.symm, ?_⟩, ?_⟩
      · rw [noData, data]
        rfl
      · rw [noAddresses, addresses]
        rfl
      · rw [toList, consumed, Nat.add_sub_cancel_left, length]
        exact stream.of_window length

theorem finished_resumeStandard {header : WindowHeader}
    (standard : header.isInterleaved d.version = false)
    (enough : header.sections.total ≤ c.rest.length) {start stop : Nat}
    (complete : ((d.enter header history.size).2.resumeStandard context
      (d.enter header history.size).1 header.sections c history).outcome =
        .ok (.complete start stop)) :
    ∃ sections moreAvailable s, d.Finished context history header c
      ((d.enter header history.size).2.resumeStandard context (d.enter header history.size).1
        header.sections c history) sections moreAvailable s := by
  have layout : (d.enter header history.size).1.layout = .standard header.sections := by
    rw [layout_enter, standard]
    rfl
  have outcome := complete
  simp only [resumeStandard, splitSections?_eq enough] at complete
  obtain ⟨ended, used, checksum, target, rfl, rfl⟩ := complete_of_conclude complete
  refine ⟨_, _, _, ?_, ?_, Prod.ext rfl ended, ?_, outcome, checksum, ?_⟩
  · rw [layout, sectionsAt?, splitSections?_eq enough]
    rfl
  · exact standard.symm
  · simp only [resumeStandard, splitSections?_eq enough]
    exact target
  · intro bytes takes
    simp only [resumeStandard, splitSections?_eq enough, cursor_conclude]
    generalize BodyState.run _ _ = run at *
    obtain ⟨⟨reader, cache, sections, target'⟩, ending⟩ := run
    cases sections with
    | interleaved _ => exact takes.elim
    | separate dataEnd instructionsEnd addressesEnd =>
      obtain ⟨data, instructions, addresses⟩ := takes
      rw [layout] at used
      obtain ⟨dataUsed, instructionsUsed, addressesUsed⟩ := WindowBody.used_of_checkSections used
      simp only [SectionLengths.total] at enough
      have behindData : (c.skip header.sections.data).rest.length =
          c.rest.length - header.sections.data := List.length_drop
      have behindInstructions : ((c.skip header.sections.data).skip
          header.sections.instructions).rest.length =
            c.rest.length - header.sections.data - header.sections.instructions := by
        rw [← behindData]
        exact List.length_drop
      obtain ⟨dataLength, data⟩ := data.of_window_used dataUsed (by omega)
      obtain ⟨instructionsLength, instructions⟩ :=
        instructions.of_window_used instructionsUsed (by omega)
      obtain ⟨addressesLength, addresses⟩ := addresses.of_window_used addressesUsed (by omega)
      exact ⟨⟨dataLength.symm, instructionsLength.symm, addressesLength.symm⟩,
        data.trans (instructions.trans addresses)⟩

theorem finished_decode (phase : d.phase = .header) {start stop : Nat}
    (complete : (d.decode context c history).outcome = .ok (.complete start stop)) :
    ∃ header s sections moreAvailable final, d.readHeader context c = (.ok header, s) ∧
      d.Finished context history header s.cursor (d.decode context c history) sections moreAvailable
        final := by
  rcases decode_cases phase context c history with
    waits | ⟨stop, s, read, final⟩ | ⟨header, s, read, enough⟩
  · rw [waits] at complete
    cases complete
  · obtain ⟨error, stopped, -⟩ := @decode_stops d context c history phase _ _ read final
    rw [stopped] at complete
    cases complete
  · rw [(@decode_enters d context c history phase _ _ read enough).1] at complete ⊢
    refine ⟨header, s, ?_⟩
    simp only [resume, layout_enter] at complete ⊢
    cases interleaved : header.isInterleaved d.version with
    | true =>
      rw [interleaved] at complete
      obtain ⟨sections, moreAvailable, final, finished⟩ :=
        finished_resumeInterleaved interleaved complete
      exact ⟨sections, moreAvailable, final, read, finished⟩
    | false =>
      rw [interleaved] at complete enough
      rw [Bool.false_or, Cursor.has_iff] at enough
      obtain ⟨sections, moreAvailable, final, finished⟩ :=
        finished_resumeStandard interleaved enough complete
      exact ⟨sections, moreAvailable, final, read, finished⟩

theorem behind_enter {header : WindowHeader} (valid : d.Valid)
    (sound : (d.enter header history.size).1.Sound context history) (sections : Sections)
    {moreAvailable : Bool} {s : BodyState}
    (run : ((d.enter header history.size).2.bodyState sections history).run
      (context.bodyContext (d.enter header history.size).1 moreAvailable) = (s, .complete)) :
    ∃ spelling, Spells d.reader.table sections.isInterleaved d.cache.sizes
        (sourceOf context header history) spelling ∧
      sections.Takes spelling.bytes s.sections ∧ spelling.size = header.targetLength ∧
      s.target = history ++ spelling.target (sourceOf context header history) := by
  have begins : ((d.enter header history.size).2.bodyState sections history).Behind
      (context.bodyContext (d.enter header history.size).1 moreAvailable) history d.reader.table
      sections.isInterleaved d.cache.sizes sections :=
    ⟨.none _, .none, Sections.takes_none _, ⟨rfl, rfl, rfl, rfl⟩, sound.space moreAvailable, rfl,
      Array.append_empty.symm⟩
  obtain ⟨⟨spelling, spells, takes, -, stands⟩, reached⟩ := BodyState.behind_run valid begins run
  have size := stands.produced.symm.trans reached
  rw [Spelling.size_target] at size
  exact ⟨spelling, spells, takes, size, stands.target⟩

theorem spelt_decode (ready : d.Ready context history) (phase : d.phase = .header)
    {start stop : Nat} (complete : (d.decode context c history).outcome = .ok (.complete start stop)) :
    ∃ header s spelling, d.readHeader context c = (.ok header, s) ∧
      d.Spelt context history header s.cursor (d.decode context c history).cursor
        (d.decode context c history).target spelling := by
  obtain ⟨header, s, sections, moreAvailable, final, read, finished⟩ := finished_decode phase complete
  obtain ⟨-, -, yields⟩ := WindowHeader.safe_parse (context.headerContext d.version)
    (context.config.checkLength context.decoded) (.ofCursor c) _ _
    (HeaderState.started_ofCursor c) read
  have sound := @sound_enter d context history header (ready.header phase) (yields header rfl)
  obtain ⟨spelling, spells, takes, size, made⟩ := behind_enter ready.valid sound _ finished.run
  obtain ⟨describes, body⟩ := finished.taken _ takes
  rw [finished.layout] at spells
  exact ⟨header, s, spelling, read, spells, describes, body, size, finished.target.trans made⟩

theorem beyond_decode (ready : d.Ready context history) (phase : d.phase = .header)
    (stalled : (d.decode context c history).outcome = .ok .needMoreData) {more : List UInt8}
    {start stop : Nat}
    (complete : (d.decode context (c.extend more) history).outcome = .ok (.complete start stop)) :
    c.offset + c.rest.length < (d.decode context (c.extend more) history).cursor.offset := by
  obtain ⟨header, s, spelling, read, spelt⟩ := spelt_decode ready phase complete
  have ends := (reaches_decode d context (c.extend more) history).offset_add_length
  have body := congrArg List.length spelt.takes.1
  rw [List.length_append, ← spelt.describes.total] at body
  simp only [Cursor.extend_offset, Cursor.extend_rest, List.length_append] at ends
  suffices s.cursor.rest.length < header.sections.total + more.length by omega
  by_cases waits : (d.readHeader context c).1 = .error .needMoreData
  · have beyond := (WindowHeader.needs_parse _ _).beyond waits read
    omega
  · rw [readHeader_extend waits] at read
    rcases there : d.readHeader context c with ⟨outcome, s'⟩
    rw [there] at read
    cases read
    have short : ¬ s'.cursor.has header.sections.total = true :=
      fun enough => decode_whole phase there enough stalled
    rw [Cursor.has_iff] at short
    simp only [HeaderState.extend, Cursor.extend_rest, List.length_append] at body ⊢
    omega

/-- A window that is complete has used up a body that spells edits, whatever pieces it has come in.
The sizes of the edits add up to the length that its header declares, and the target is what they
make. They are all that the opcodes of the body stand for, but for one slot that may be left over. -/
theorem spells_of_complete (ready : d.Ready context history) (phase : d.phase = .header) (c : Cursor)
    (pieces : List (List UInt8)) {start stop : Nat}
    (complete : (d.feed context c history pieces).outcome = .ok (.complete start stop)) :
    ∃ header s spelling, d.readHeader context (c.extend pieces.flatten) = (.ok header, s) ∧
      d.Spelt context history header s.cursor (d.feed context c history pieces).cursor
        (d.feed context c history pieces).target spelling ∧
      d.reader.table.slotsOf spelling.opcodes =
        spelling.executed.map Prod.fst ++ spelling.waiting.toList := by
  have alike := alike_feed ready c pieces
  obtain ⟨whole, cursor, target⟩ := alike.of_complete complete
  obtain ⟨header, s, spelling, read, spelt⟩ := spelt_decode ready phase whole
  rw [cursor, target] at spelt
  exact ⟨header, s, spelling, read, spelt, spelt.spells.slots⟩

theorem spells_of_complete_interleaved :
    let d := ofVersion .sdch
    let c : Cursor := ⟨0, [0, 7, 1, 0, 0, 2, 0, 163]⟩
    let pieces : List (List UInt8) := [[0x61]]
    d.Ready ⟨#[], {}, 0⟩ #[] ∧ d.phase = .header ∧
      (d.feed ⟨#[], {}, 0⟩ c #[] pieces).outcome = .ok (.complete 0 1) ∧
      ∃ header s spelling, d.readHeader ⟨#[], {}, 0⟩ (c.extend pieces.flatten) = (.ok header, s) ∧
        d.Spelt ⟨#[], {}, 0⟩ #[] header s.cursor (d.feed ⟨#[], {}, 0⟩ c #[] pieces).cursor
          (d.feed ⟨#[], {}, 0⟩ c #[] pieces).target spelling ∧
        d.reader.table.slotsOf spelling.opcodes =
          spelling.executed.map Prod.fst ++ spelling.waiting.toList :=
  have ready : (ofVersion .sdch).Ready ⟨#[], {}, 0⟩ #[] :=
    ⟨CodeTable.valid_standard, fun _ => rfl, fun _ h => by cases h⟩
  have complete : ((ofVersion .sdch).feed ⟨#[], {}, 0⟩ ⟨0, [0, 7, 1, 0, 0, 2, 0, 163]⟩ #[]
      [[0x61]]).outcome = .ok (.complete 0 1) := by decide +kernel
  ⟨ready, rfl, complete, spells_of_complete ready rfl _ _ complete⟩

/-- Of an opcode for two instructions the first one makes all of the target that is declared, and the
window is complete without the second one. -/
theorem decode_drops_slot :
    let window : List UInt8 := [0, 7, 1, 0, 1, 1, 0, 0x61, 163]
    let progress := (ofVersion .standard).decode ⟨#[], {}, 0⟩ ⟨0, window⟩ #[]
    ((ofVersion .standard).readHeader ⟨#[], {}, 0⟩ ⟨0, window⟩).1 =
        .ok ⟨.none, 1, ⟨1, 1, 0, none⟩⟩ ∧
      progress.outcome = .ok (.complete 0 1) ∧ progress.cursor.rest = [] ∧
      CodeTable.standard.slotsOf [163] = [.add 1, .copy 4 0] := by
  decide +kernel

end WindowDecoder

end DeltaCoding
