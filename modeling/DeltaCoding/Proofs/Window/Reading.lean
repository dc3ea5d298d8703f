import DeltaCoding.Proofs.CodeTable.Lookup
import DeltaCoding.Proofs.Window.Body

/-!
# Reading what makes a target

`Makes` says that bytes in the sections of a body stand for a target: opcodes, each of which stands
for one or two edits, with the sizes, literal bytes and addresses that belong to them. It does not
matter how the sections are laid out. The instructions that are read from such bytes make the target
again, whatever follows the bytes (`Makes.run`).
-/

namespace DeltaCoding

/-- Bytes for the sections of a body. -/
@[ext]
structure SectionBytes where
  data : List UInt8
  instructions : List UInt8
  addresses : List UInt8

namespace SectionBytes

instance : Append SectionBytes :=
  ⟨fun a b => ⟨a.data ++ b.data, a.instructions ++ b.instructions, a.addresses ++ b.addresses⟩⟩

/-- No bytes. -/
def none : SectionBytes := ⟨[], [], []⟩

/-- Opcodes and sizes. -/
def code (bytes : List UInt8) : SectionBytes := ⟨[], bytes, []⟩

/-- Literal bytes. -/
def literal (interleaved : Bool) (bytes : List UInt8) : SectionBytes :=
  if interleaved then code bytes else ⟨bytes, [], []⟩

/-- An address. -/
def address (interleaved : Bool) (bytes : List UInt8) : SectionBytes :=
  if interleaved then code bytes else ⟨[], [], bytes⟩

theorem append_assoc (a b c : SectionBytes) : a ++ b ++ c = a ++ (b ++ c) := by
  simp only [HAppend.hAppend, Append.append, mk.injEq]
  exact ⟨List.append_assoc _ _ _, List.append_assoc _ _ _, List.append_assoc _ _ _⟩

@[simp] theorem data_append (a b : SectionBytes) : (a ++ b).data = a.data ++ b.data := rfl

@[simp] theorem instructions_append (a b : SectionBytes) :
    (a ++ b).instructions = a.instructions ++ b.instructions := rfl

@[simp] theorem addresses_append (a b : SectionBytes) :
    (a ++ b).addresses = a.addresses ++ b.addresses := rfl

@[simp] theorem append_none (a : SectionBytes) : a ++ none = a := by
  obtain ⟨data, instructions, addresses⟩ := a
  simp only [HAppend.hAppend, Append.append, none]
  simp

end SectionBytes

namespace Sections

/-- `bytes` come next in the sections, and `sections'` stand behind them. -/
def Takes : (sections : Sections) → (bytes : SectionBytes) → (sections' : Sections) → Prop
  | separate data instructions addresses, bytes, separate data' instructions' addresses' =>
    data.Takes bytes.data data' ∧ instructions.Takes bytes.instructions instructions' ∧
      addresses.Takes bytes.addresses addresses'
  | interleaved stream, bytes, interleaved stream' =>
    bytes.data = [] ∧ bytes.addresses = [] ∧ stream.Takes bytes.instructions stream'
  | _, _, _ => False

variable {sections sections' : Sections} {bytes more : SectionBytes}

theorem Takes.separate {data instructions addresses : Cursor}
    (h : (separate data instructions addresses).Takes bytes sections') :
    ∃ data' instructions' addresses', sections' = .separate data' instructions' addresses' ∧
      data.Takes bytes.data data' ∧ instructions.Takes bytes.instructions instructions' ∧
        addresses.Takes bytes.addresses addresses' := by
  cases sections' with
  | separate _ _ _ => exact ⟨_, _, _, rfl, h⟩
  | interleaved _ => exact h.elim

theorem Takes.interleaved {stream : Cursor} (h : (interleaved stream).Takes bytes sections') :
    ∃ stream', sections' = .interleaved stream' ∧ bytes.data = [] ∧ bytes.addresses = [] ∧
      stream.Takes bytes.instructions stream' := by
  cases sections' with
  | separate _ _ _ => exact h.elim
  | interleaved _ => exact ⟨_, rfl, h⟩

theorem Takes.split (h : sections.Takes (bytes ++ more) sections') :
    ∃ between, sections.Takes bytes between ∧ between.Takes more sections' := by
  cases sections with
  | separate _ _ _ =>
    obtain ⟨_, _, _, rfl, data, instructions, addresses⟩ := h.separate
    obtain ⟨data', data₁, data₂⟩ := data.split
    obtain ⟨instructions', instructions₁, instructions₂⟩ := instructions.split
    obtain ⟨addresses', addresses₁, addresses₂⟩ := addresses.split
    exact ⟨.separate data' instructions' addresses', ⟨data₁, instructions₁, addresses₁⟩,
      data₂, instructions₂, addresses₂⟩
  | interleaved _ =>
    obtain ⟨_, rfl, noData, noAddresses, stream⟩ := h.interleaved
    obtain ⟨stream', stream₁, stream₂⟩ := stream.split
    rw [SectionBytes.data_append, List.append_eq_nil_iff] at noData
    rw [SectionBytes.addresses_append, List.append_eq_nil_iff] at noAddresses
    exact ⟨.interleaved stream', ⟨noData.1, noAddresses.1, stream₁⟩, noData.2, noAddresses.2,
      stream₂⟩

theorem Takes.layout (h : sections.Takes bytes sections') :
    sections'.isInterleaved = sections.isInterleaved := by
  cases sections with
  | separate _ _ _ =>
    obtain ⟨_, _, _, rfl, -⟩ := h.separate
    rfl
  | interleaved _ =>
    obtain ⟨_, rfl, -⟩ := h.interleaved
    rfl

theorem Takes.unique {sections'' : Sections} (h : sections.Takes bytes sections')
    (h' : sections.Takes bytes sections'') : sections'' = sections' := by
  cases sections with
  | separate _ _ _ =>
    obtain ⟨_, _, _, rfl, data, instructions, addresses⟩ := h.separate
    obtain ⟨_, _, _, rfl, data', instructions', addresses'⟩ := h'.separate
    rw [data.unique data', instructions.unique instructions', addresses.unique addresses']
  | interleaved _ =>
    obtain ⟨_, rfl, -, -, stream⟩ := h.interleaved
    obtain ⟨_, rfl, -, -, stream'⟩ := h'.interleaved
    rw [stream.unique stream']

theorem takes_none (sections : Sections) : sections.Takes .none sections := by
  cases sections with
  | separate _ _ _ => exact ⟨.refl _, .refl _, .refl _⟩
  | interleaved _ => exact ⟨rfl, rfl, .refl _⟩

theorem takes_code {bytes : List UInt8} (h : sections.Takes (.code bytes) sections') :
    ∃ c, sections.instructions.Takes bytes c ∧ sections' = sections.withInstructions c := by
  cases sections with
  | separate _ _ _ =>
    obtain ⟨_, _, _, rfl, data, instructions, addresses⟩ := h.separate
    obtain rfl := data.unique (.refl _)
    obtain rfl := addresses.unique (.refl _)
    exact ⟨_, instructions, rfl⟩
  | interleaved _ =>
    obtain ⟨_, rfl, -, -, stream⟩ := h.interleaved
    exact ⟨_, stream, rfl⟩

theorem takes_literal {bytes : List UInt8}
    (h : sections.Takes (.literal sections.isInterleaved bytes) sections') :
    ∃ c, sections.data.Takes bytes c ∧ sections' = sections.withData c := by
  cases sections with
  | separate _ _ _ =>
    obtain ⟨_, _, _, rfl, data, instructions, addresses⟩ := h.separate
    obtain rfl := instructions.unique (.refl _)
    obtain rfl := addresses.unique (.refl _)
    exact ⟨_, data, rfl⟩
  | interleaved _ =>
    obtain ⟨_, rfl, -, -, stream⟩ := h.interleaved
    exact ⟨_, stream, rfl⟩

theorem takes_address {bytes : List UInt8}
    (h : sections.Takes (.address sections.isInterleaved bytes) sections') :
    ∃ c, sections.addresses.Takes bytes c ∧ sections' = sections.withAddresses c := by
  cases sections with
  | separate _ _ _ =>
    obtain ⟨_, _, _, rfl, data, instructions, addresses⟩ := h.separate
    obtain rfl := data.unique (.refl _)
    obtain rfl := instructions.unique (.refl _)
    exact ⟨_, addresses, rfl⟩
  | interleaved _ =>
    obtain ⟨_, rfl, -, -, stream⟩ := h.interleaved
    exact ⟨_, stream, rfl⟩

end Sections

/-! ## What an edit is written as -/

/-- The bytes supply what the instruction leaves open, so that it amounts to the edit. -/
inductive Supplies (interleaved : Bool) (cache : AddressCache) (here : Nat) :
    Edit → Instruction → SectionBytes → AddressCache → Prop where
  | add (bytes : List UInt8) : Supplies interleaved cache here (.add bytes) (.add bytes.length)
      (.literal interleaved bytes) cache
  | run (size : Nat) (byte : UInt8) : Supplies interleaved cache here (.run size byte) (.run size)
      (.literal interleaved [byte]) cache
  | copy {address mode : Nat} {bytes : List UInt8} {cache' : AddressCache} (size : Nat)
      (before : address < here) (nonempty : bytes ≠ [])
      (names : (cache.decode here mode).Reads bytes (address, cache')) :
      Supplies interleaved cache here (.copy address size) (.copy size mode)
        (.address interleaved bytes) cache'

/-- Behind an opcode, the bytes make the edit of a slot. -/
def Slot.Carries (slot : Slot) (interleaved : Bool) (cache : AddressCache) (here : Nat) (e : Edit)
    (bytes : SectionBytes) (cache' : AddressCache) : Prop :=
  ∃ sizeBytes instruction supplied, bytes = .code sizeBytes ++ supplied ∧ 0 < e.size ∧
    slot.parse.Reads sizeBytes (some instruction) ∧
    Supplies interleaved cache here e instruction supplied cache'

theorem Supplies.size_eq {interleaved : Bool} {cache cache' : AddressCache} {here : Nat} {e : Edit}
    {instruction : Instruction} {bytes : SectionBytes}
    (h : Supplies interleaved cache here e instruction bytes cache') :
    instruction.size = e.size := by
  cases h <;> rfl

theorem Slot.Carries.isNoop {slot : Slot} {interleaved : Bool} {cache cache' : AddressCache}
    {here : Nat} {e : Edit} {bytes : SectionBytes}
    (h : slot.Carries interleaved cache here e bytes cache') : slot.isNoop = false := by
  obtain ⟨sizeBytes, instruction, -, -, -, reads, -⟩ := h
  have read := reads _ _ (Cursor.takes_append 0 sizeBytes [])
  cases noop : slot.isNoop with
  | false => rfl
  | true =>
    simp only [Slot.parse, noop, if_true, Parser.pure_run] at read
    cases read

/-- The bytes stand for the target, and bring the cache from its start to `cache`. -/
inductive Makes (table : CodeTable) (interleaved : Bool) (sizes : CacheSizes)
    (source : Array UInt8) : Array UInt8 → SectionBytes → AddressCache → Prop where
  | none : Makes table interleaved sizes source #[] .none (.empty sizes)
  | single {out : Array UInt8} {bytes part : SectionBytes} {cache cache' : AddressCache}
      {opcode : UInt8} {slot : Slot} {e : Edit}
      (before : Makes table interleaved sizes source out bytes cache)
      (stands : (table.entry opcode).single? = some slot)
      (carries : slot.Carries interleaved cache (source.size + out.size) e part cache') :
      Makes table interleaved sizes source (e.replay source out)
        (bytes ++ (.code [opcode] ++ part)) cache'
  | double {out : Array UInt8} {bytes part part' : SectionBytes}
      {cache cache' cache'' : AddressCache} {opcode : UInt8} {slot slot' : Slot} {e e' : Edit}
      (before : Makes table interleaved sizes source out bytes cache)
      (stands : table.entry opcode = ⟨slot, slot'⟩)
      (carries : slot.Carries interleaved cache (source.size + out.size) e part cache')
      (carries' : slot'.Carries interleaved cache' (source.size + (e.replay source out).size) e'
        part' cache'') :
      Makes table interleaved sizes source (e'.replay source (e.replay source out))
        (bytes ++ (.code [opcode] ++ (part ++ part'))) cache''

theorem Makes.instructions_ne {table : CodeTable} {interleaved : Bool} {sizes : CacheSizes}
    {source out : Array UInt8} {bytes : SectionBytes} {cache : AddressCache}
    (makes : Makes table interleaved sizes source out bytes cache) (nonempty : out ≠ #[]) :
    bytes.instructions ≠ [] := by
  cases makes with
  | none => exact absurd rfl nonempty
  | single before stands carries => simp [SectionBytes.code]
  | double before stands carries carries' => simp [SectionBytes.code]

theorem Supplies.stream {cache cache' : AddressCache} {here : Nat} {e : Edit}
    {instruction : Instruction} {bytes : SectionBytes}
    (h : Supplies true cache here e instruction bytes cache') :
    bytes.data = [] ∧ bytes.addresses = [] := by
  cases h <;> exact ⟨rfl, rfl⟩

theorem Slot.Carries.stream {slot : Slot} {cache cache' : AddressCache} {here : Nat} {e : Edit}
    {bytes : SectionBytes} (h : slot.Carries true cache here e bytes cache') :
    bytes.data = [] ∧ bytes.addresses = [] := by
  obtain ⟨_, _, supplied, rfl, -, -, supplies⟩ := h
  exact supplies.stream

theorem Slot.Carries.nonempty {slot : Slot} {cache cache' : AddressCache} {here : Nat} {e : Edit}
    {bytes : SectionBytes} (h : slot.Carries false cache here e bytes cache') :
    ¬ (bytes.data = [] ∧ bytes.addresses = []) := by
  obtain ⟨_, _, supplied, rfl, positive, -, supplies⟩ := h
  rintro ⟨data, addresses⟩
  cases supplies with
  | add literal =>
    obtain rfl : literal = [] := data
    exact Nat.lt_irrefl 0 positive
  | run size byte => cases data
  | copy size before nonempty names => exact nonempty addresses

namespace Makes

variable {table : CodeTable} {sizes : CacheSizes} {source out : Array UInt8} {bytes : SectionBytes}
  {cache : AddressCache}

theorem stream (h : Makes table true sizes source out bytes cache) :
    bytes.data = [] ∧ bytes.addresses = [] := by
  induction h with
  | none => exact ⟨rfl, rfl⟩
  | single before stands carries ih =>
    obtain ⟨data, addresses⟩ := carries.stream
    simp [ih.1, ih.2, data, addresses, SectionBytes.code]
  | double before stands carries carries' ih =>
    obtain ⟨data, addresses⟩ := carries.stream
    obtain ⟨data', addresses'⟩ := carries'.stream
    simp [ih.1, ih.2, data, addresses, data', addresses', SectionBytes.code]

theorem eq_none_of_empty (h : Makes table false sizes source out bytes cache)
    (data : bytes.data = []) (addresses : bytes.addresses = []) :
    out = #[] ∧ bytes = .none ∧ cache = .empty sizes := by
  cases h with
  | none => exact ⟨rfl, rfl, rfl⟩
  | single before stands carries =>
    simp only [SectionBytes.data_append, SectionBytes.addresses_append, List.append_eq_nil_iff]
      at data addresses
    exact absurd ⟨data.2.2, addresses.2.2⟩ carries.nonempty
  | double before stands carries carries' =>
    simp only [SectionBytes.data_append, SectionBytes.addresses_append, List.append_eq_nil_iff]
      at data addresses
    exact absurd ⟨data.2.2.1, addresses.2.2.1⟩ carries.nonempty

theorem interleaved_of_empty (h : Makes table false sizes source out bytes cache)
    (data : bytes.data = []) (addresses : bytes.addresses = []) :
    Makes table true sizes source out bytes cache := by
  obtain ⟨rfl, rfl, rfl⟩ := h.eq_none_of_empty data addresses
  exact .none

end Makes

namespace InstructionReader

variable {table : CodeTable} {pending waiting : Option Slot} {slot : Slot} {opcode : UInt8}

/-- Behind the given opcodes, of which there is at most one, the slot comes next. -/
def Offers (table : CodeTable) (pending : Option Slot) (opcodes : List UInt8) (slot : Slot)
    (waiting : Option Slot) : Prop :=
  ∀ sizeBytes instruction, slot.parse.Reads sizeBytes (some instruction) →
    ∀ c c' : Cursor, c.Takes (opcodes ++ sizeBytes) c' →
      fetch table pending c = ⟨.ok (some instruction), waiting, c'⟩

theorem offers_waiting (table : CodeTable) (slot : Slot) :
    Offers table (some slot) [] slot none := by
  intro sizeBytes instruction reads c c' takes
  exact fetch_some rfl (reads _ _ takes)

theorem nextSlot?_opcode {c c' : Cursor} (takes : c.Takes [opcode] c') :
    nextSlot? table none c =
      some ((table.entry opcode).first, secondSlot? (table.entry opcode), c') := by
  obtain ⟨offset, rest⟩ := c
  obtain ⟨rest', offset'⟩ := takes
  simp only at rest' offset'
  subst rest'
  obtain ⟨offset', rest'⟩ := c'
  subst offset'
  rfl

theorem offers_double {slot' : Slot} (stands : table.entry opcode = ⟨slot, slot'⟩)
    (noop : slot'.isNoop = false) : Offers table none [opcode] slot (some slot') := by
  intro sizeBytes instruction reads c c' takes
  obtain ⟨c₁, first, second⟩ := takes.split
  have next := @nextSlot?_opcode table _ _ _ first
  rw [stands] at next
  simp only [secondSlot?, noop] at next
  exact fetch_some next (reads _ _ second)

theorem offers_single (stands : (table.entry opcode).single? = some slot) :
    Offers table none [opcode] slot none := by
  intro sizeBytes instruction reads c c' takes
  obtain ⟨c₁, first, second⟩ := takes.split
  have next := @nextSlot?_opcode table _ _ _ first
  simp only [Entry.single?] at stands
  split at stands
  · next noop =>
    cases stands
    simp only [secondSlot?, noop, if_true] at next
    exact fetch_some next (reads _ _ second)
  · next firstNoop secondNoop =>
    cases stands
    simp only [secondSlot?, secondNoop] at next
    have skipped : (table.entry opcode).first.parse c₁ = .ok (none, c₁) := by
      simp only [Slot.parse, firstNoop, if_true]
      rfl
    rw [fetch_skip next skipped]
    exact offers_waiting table _ sizeBytes instruction reads c₁ c' second
  · cases stands

end InstructionReader

/-! ## Carrying out an edit -/

namespace BodyState

variable {s : BodyState} {context : BodyContext} {history out : Array UInt8}

/-- The body has made `out` behind the target of earlier windows. -/
structure Stands (s : BodyState) (context : BodyContext) (history out : Array UInt8) : Prop where
  within : context.space.Within
  starts : history.size = context.space.windowStart
  target : s.target = history ++ out

theorem Stands.produced (h : s.Stands context history out) : s.produced context = out.size := by
  rw [BodyState.produced, h.target, Array.size_append, h.starts, Nat.add_sub_cancel_left]

/-- What the body is read with. -/
structure Equipped (s : BodyState) (table : CodeTable) (pending : Option Slot)
    (cache : AddressCache) (interleaved : Bool) : Prop where
  table : s.reader.table = table
  pending : s.reader.pending = pending
  cache : s.cache = cache
  layout : s.sections.isInterleaved = interleaved

theorem perform_supplies (stands : s.Stands context history out) {e : Edit}
    {instruction : Instruction} {bytes : SectionBytes} {cache' : AddressCache}
    {sections' : Sections}
    (supplies : Supplies s.sections.isInterleaved s.cache
      ((context.space.source history).size + out.size) e instruction bytes cache')
    (takes : s.sections.Takes bytes sections') :
    s.perform context instruction =
      (⟨s.reader, cache', sections', history ++ e.replay (context.space.source history) out⟩,
        .done) := by
  obtain ⟨reader, cache, sections, target⟩ := s
  obtain rfl := stands.target
  cases supplies with
  | add bytes =>
    obtain ⟨c, data, rfl⟩ := Sections.takes_literal takes
    simp only [perform, performAdd, Parser.reads_bytes bytes _ _ data]
    simp [Edit.replay, ← Array.toList_inj]
  | run size byte =>
    obtain ⟨c, data, rfl⟩ := Sections.takes_literal takes
    simp only [perform, performRun, Parser.reads_byte byte _ _ data]
    simp [Edit.replay]
  | copy size before _ names =>
    obtain ⟨c, address, rfl⟩ := Sections.takes_address takes
    have size_source := AddressSpace.size_source stands.within stands.starts
    rw [size_source] at before names
    have copied := @AddressSpace.copy?_eq _ _ _ _ size stands.within stands.starts before
    simp only [perform, performCopy, stands.produced, names _ _ address, copied]
    rfl

/-- The next slot of the opcode stream is carried out with what is there for it. -/
theorem step_carries {table : CodeTable} {pending waiting : Option Slot}
    {cache cache' : AddressCache} {interleaved : Bool} (stands : s.Stands context history out)
    (equipped : s.Equipped table pending cache interleaved) {opcodes : List UInt8} {slot : Slot}
    {e : Edit} {bytes : SectionBytes} {sections' : Sections}
    (offers : InstructionReader.Offers table pending opcodes slot waiting)
    (carries : slot.Carries interleaved cache ((context.space.source history).size + out.size) e
      bytes cache')
    (takes : s.sections.Takes (.code opcodes ++ bytes) sections')
    (room : out.size + e.size ≤ context.targetLength) :
    ∃ s', s.step context = .next s' ∧ s'.sections = sections' ∧
      s'.Equipped table waiting cache' interleaved ∧
      s'.Stands context history (e.replay (context.space.source history) out) := by
  obtain ⟨rfl, rfl, rfl, rfl⟩ := equipped
  obtain ⟨sizeBytes, instruction, supplied, rfl, positive, reads, supplies⟩ := carries
  have layout := takes.layout
  rw [← SectionBytes.append_assoc] at takes
  obtain ⟨between, code, rest⟩ := takes.split
  obtain ⟨c, opcode, rfl⟩ := @Sections.takes_code _ _ (opcodes ++ sizeBytes) code
  have fetched := offers sizeBytes instruction reads _ _ opcode
  have taken := @InstructionReader.next_fetched s.reader s.sections.instructions
    (by rw [fetched]; intro h; cases h)
  rw [fetched] at taken
  have sizes := supplies.size_eq
  have produced := stands.produced
  have inside : ¬ s.target.size < context.space.windowStart := by
    rw [stands.target, Array.size_append, stands.starts]
    omega
  simp only [step]
  rw [if_neg inside, if_neg (by omega), taken]
  generalize hreader : { s.reader.mark s.sections.instructions with pending := waiting } = reader
  have after : (s.afterRead reader c).Stands context history out := ⟨stands.1, stands.2, stands.3⟩
  have performed := @perform_supplies (s.afterRead reader c) _ _ _ after e instruction supplied
    cache' sections' (by
      rw [afterRead, Sections.isInterleaved_withInstructions]
      exact supplies) rest
  have afterProduced := after.produced
  simp only [execute]
  rw [if_neg (by omega), if_neg (by omega), performed]
  subst hreader
  exact ⟨_, rfl, rfl, ⟨rfl, rfl, rfl, layout⟩, stands.within, stands.starts, rfl⟩

/-- From bytes that make a target, the instructions of a body make it again. -/
theorem run_makes {table : CodeTable} {interleaved : Bool} {sizes : CacheSizes}
    {bytes rest : SectionBytes} {cache : AddressCache} {sections' : Sections}
    (makes : Makes table interleaved sizes (context.space.source history) out bytes cache)
    (stands : s.Stands context history #[])
    (equipped : s.Equipped table none (.empty sizes) interleaved)
    (takes : s.sections.Takes (bytes ++ rest) sections') (room : out.size ≤ context.targetLength) :
    ∃ s' : BodyState, s.run context = s'.run context ∧ s'.sections.Takes rest sections' ∧
      s'.Equipped table none cache interleaved ∧ s'.Stands context history out := by
  -- By what has been made so far. The opcode that was added last is read last.
  induction makes generalizing rest with
  | none => exact ⟨s, rfl, takes, equipped, stands⟩
  | single before standsFor carries ih =>
    rw [Edit.size_replay] at room
    rw [SectionBytes.append_assoc] at takes
    obtain ⟨s₁, run₁, takes₁, equipped₁, stands₁⟩ := ih takes (by omega)
    obtain ⟨_, part, rest⟩ := takes₁.split
    obtain ⟨s₂, step₂, rfl, equipped₂, stands₂⟩ := step_carries stands₁ equipped₁
      (InstructionReader.offers_single standsFor) carries part room
    exact ⟨s₂, run₁.trans (run_next step₂), rest, equipped₂, stands₂⟩
  | @double out bytes part part' _ _ _ opcode slot slot' e e' before standsFor carries carries' ih =>
    rw [Edit.size_replay, Edit.size_replay] at room
    rw [SectionBytes.append_assoc] at takes
    obtain ⟨s₁, run₁, takes₁, equipped₁, stands₁⟩ := ih takes (by omega)
    obtain ⟨_, parts, rest⟩ := takes₁.split
    rw [← SectionBytes.append_assoc] at parts
    obtain ⟨_, first, second⟩ := parts.split
    obtain ⟨s₂, step₂, rfl, equipped₂, stands₂⟩ := step_carries stands₁ equipped₁
      (InstructionReader.offers_double standsFor carries'.isNoop) carries first (by omega)
    obtain ⟨s₃, step₃, rfl, equipped₃, stands₃⟩ := step_carries stands₂ equipped₂
      (InstructionReader.offers_waiting table slot') carries' second
      (by rw [Edit.size_replay]; omega)
    exact ⟨s₃, run₁.trans ((run_next step₂).trans (run_next step₃)), rest, equipped₃, stands₃⟩

theorem run_makes_complete {table : CodeTable} {interleaved : Bool} {sizes : CacheSizes}
    {bytes : SectionBytes} {cache : AddressCache} {sections' : Sections}
    (makes : Makes table interleaved sizes (context.space.source history) out bytes cache)
    (stands : s.Stands context history #[])
    (equipped : s.Equipped table none (.empty sizes) interleaved)
    (takes : s.sections.Takes bytes sections') (whole : out.size = context.targetLength) :
    ∃ s', s.run context = (s', .complete) ∧ s'.sections = sections' ∧
      s'.Equipped table none cache interleaved ∧ s'.Stands context history out := by
  rw [← SectionBytes.append_none bytes] at takes
  obtain ⟨s', run, rest, equipped', stands'⟩ :=
    run_makes makes stands equipped takes (Nat.le_of_eq whole)
  have ended : s'.step context = .ended s' .complete := by
    refine step_reached (stands'.produced.trans whole) ?_
    rw [stands'.target, Array.size_append, stands'.starts]
    omega
  exact ⟨s', run.trans (run_ended ended), rest.unique (Sections.takes_none _), equipped', stands'⟩

end BodyState

end DeltaCoding
