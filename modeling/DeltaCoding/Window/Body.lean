import DeltaCoding.AddressCache
import DeltaCoding.Instruction.Reader
import DeltaCoding.Window.Copy
import DeltaCoding.Window.Sections

/-!
# Carrying out a window body

The state of a body in progress is a `BodyState`: the instruction reader, the address cache, the
places where the sections are read, and the buffer that the target grows in. `BodyState.step` takes
an instruction off the opcode stream and carries it out; `BodyState.run` goes on until the declared
target length is reached.

An instruction whose bytes or address are not all there is put back, and the window either waits for
more input or fails. It is never carried out in part.
-/

namespace DeltaCoding

/-- What a body is carried out against. -/
structure BodyContext where
  space : AddressSpace
  targetLength : Nat
  /-- More input for the body may still arrive. -/
  moreAvailable : Bool

/-- The state of a window body in progress. -/
structure BodyState where
  reader : InstructionReader
  cache : AddressCache
  sections : Sections
  /-- The target of earlier windows, then that of this one so far. -/
  target : Array UInt8

/-- How an instruction comes out. -/
inductive Performed where
  | done
  /-- A part of the instruction is missing in a section. -/
  | blocked (part : Section)
  | failed (stop : ParseStop)

/-- How the instructions of a body come to an end. -/
inductive BodyEnd where
  /-- The target has its declared length. -/
  | complete
  | needMoreData
  /-- The instruction that starts `offset` bytes into the stream cannot be carried out. -/
  | malformed (offset : Nat) (error : FormatError)
  | breach
deriving DecidableEq

namespace BodyContext

/-- What it means that a section ends too early, at an instruction that starts at `offset`. -/
def stalled (context : BodyContext) (interleaved : Bool) (offset : Nat) (part : Section) :
    BodyEnd :=
  if context.moreAvailable then .needMoreData
  else .malformed offset (.sectionExhausted (if interleaved then .interleaved else part))

end BodyContext

namespace BodyEnd

/-- The end that a stopped parse step makes of an instruction that starts at `offset`. -/
def ofStop (offset : Nat) : ParseStop → BodyEnd
  | .malformed error => malformed offset error
  | .needMoreData => needMoreData
  | .breach => breach

end BodyEnd

/-- What the next instruction of a body comes to. -/
inductive BodyStep where
  /-- It has been carried out. -/
  | next (s : BodyState)
  /-- It is the end of the body. -/
  | ended (s : BodyState) (ending : BodyEnd)

namespace BodyState

def produced (s : BodyState) (context : BodyContext) : Nat :=
  s.target.size - context.space.windowStart

def slotBound (s : BodyState) : Nat :=
  InstructionReader.slotBound s.reader.pending s.sections.instructions

def performAdd (s : BodyState) (size : Nat) : BodyState × Performed :=
  match Parser.bytes size s.sections.data with
  | .ok (bytes, c) =>
    ({ s with sections := s.sections.withData c, target := s.target.appendList bytes }, .done)
  | .error _ => (s, .blocked .data)

def performRun (s : BodyState) (size : Nat) : BodyState × Performed :=
  match Parser.byte s.sections.data with
  | .ok (byte, c) =>
    ({ s with
        sections := s.sections.withData c
        target := s.target ++ Array.replicate size byte }, .done)
  | .error _ => (s, .blocked .data)

def performCopy (s : BodyState) (context : BodyContext) (size mode : Nat) :
    BodyState × Performed :=
  let here := context.space.segment.length + s.produced context
  match s.cache.decode here mode s.sections.addresses with
  | .ok ((address, cache), c) =>
    let sections := s.sections.withAddresses c
    match context.space.copy? s.target address size with
    | some target => (⟨s.reader, cache, sections, target⟩, .done)
    | none => (⟨s.reader, cache, sections, #[]⟩, .failed .breach)
  | .error .needMoreData => (s, .blocked .addresses)
  | .error stop => (s, .failed stop)

/-- Carries out an instruction that has been taken off the opcode stream. An instruction that is not
carried out changes nothing, unless there is no answer at all. -/
def perform (s : BodyState) (context : BodyContext) : Instruction → BodyState × Performed
  | .add size => s.performAdd size
  | .run size => s.performRun size
  | .copy size mode => s.performCopy context size mode

theorem slotBound_le_of_reaches {s : BodyState} {sections : Sections} {target : Array UInt8}
    {cache : AddressCache} (h : s.sections.instructions.Reaches sections.instructions) :
    BodyState.slotBound ⟨s.reader, cache, sections, target⟩ ≤ s.slotBound := by
  have := h.length_le
  simp only [slotBound, InstructionReader.slotBound]
  omega

theorem slotBound_perform_le (s : BodyState) (context : BodyContext) (instruction : Instruction) :
    (s.perform context instruction).1.slotBound ≤ s.slotBound := by
  cases instruction with
  | add size =>
    simp only [perform, performAdd]
    split
    · next bytes c h =>
      exact slotBound_le_of_reaches (Sections.reaches_withData (Parser.reaches_bytes h))
    · exact Nat.le_refl _
  | run size =>
    simp only [perform, performRun]
    split
    · next byte c h =>
      exact slotBound_le_of_reaches (Sections.reaches_withData (Parser.reaches_byte h))
    · exact Nat.le_refl _
  | copy size mode =>
    simp only [perform, performCopy]
    split
    · next address cache c h =>
      have reach := Sections.reaches_withAddresses (AddressCache.reaches_decode h)
      split <;> exact slotBound_le_of_reaches reach
    · exact Nat.le_refl _
    · exact Nat.le_refl _

def afterRead (s : BodyState) (reader : InstructionReader) (c : Cursor) : BodyState :=
  { s with reader := reader, sections := s.sections.withInstructions c }

/-- Puts the last instruction back. `sections` is where the sections were read before it. -/
def putBack (s : BodyState) (sections : Sections) : BodyState :=
  { s with reader := s.reader.unget, sections := sections }

theorem slotBound_afterRead {s : BodyState} {instruction : Instruction}
    {reader : InstructionReader} {c : Cursor}
    (h : s.reader.next s.sections.instructions = (.ok (some instruction), reader, c)) :
    (s.afterRead reader c).slotBound < s.slotBound := by
  have hlt := @InstructionReader.slotBound_next s.reader s.sections.instructions instruction
    (by rw [h])
  rw [h] at hlt
  simpa only [slotBound, afterRead, Sections.instructions_withInstructions] using hlt

/-- Carries out an instruction that has been taken off the opcode stream, if the window has room for
it. `before` is where the sections were read before it. -/
def execute (s : BodyState) (context : BodyContext) (before : Sections)
    (instruction : Instruction) : BodyStep :=
  let produced := s.produced context
  let remaining := context.targetLength - produced
  let offset := before.instructions.offset
  if context.targetLength < produced then .ended s .breach
  else if instruction.size > remaining then
    .ended s (.malformed offset (.targetWindowOverflow instruction.size remaining))
  else
    match s.perform context instruction with
    | (s, .done) => .next s
    -- What was read of the instruction is given back, in its own section and in the others.
    | (s, .blocked part) =>
      .ended (s.putBack before) (context.stalled before.isInterleaved offset part)
    | (s, .failed stop) => .ended s (.ofStop offset stop)

/-- Takes the next instruction off the opcode stream and carries it out. -/
def step (s : BodyState) (context : BodyContext) : BodyStep :=
  let produced := s.produced context
  -- The window's output cannot start behind the end of the buffer.
  if s.target.size < context.space.windowStart then .ended s .breach
  -- Opcodes behind the last target byte stay unread; they count as excess data.
  else if produced = context.targetLength then .ended s .complete
  else
    let sections := s.sections
    let offset := sections.instructions.offset
    match s.reader.next sections.instructions with
    | (.error .needMoreData, reader, c) =>
      .ended (s.afterRead reader c) (context.stalled sections.isInterleaved offset .instructions)
    | (.error stop, reader, c) => .ended (s.afterRead reader c) (.ofStop offset stop)
    | (.ok none, reader, c) =>
      .ended (s.afterRead reader c)
        (if context.moreAvailable then .needMoreData
        else .malformed offset (.targetLengthMismatch context.targetLength produced))
    | (.ok (some instruction), reader, c) =>
      (s.afterRead reader c).execute context sections instruction

theorem slotBound_execute {s s' : BodyState} {context : BodyContext} {before : Sections}
    {instruction : Instruction} (h : s.execute context before instruction = .next s') :
    s'.slotBound ≤ s.slotBound := by
  simp only [execute] at h
  split at h
  · cases h
  · split at h
    · cases h
    · have bound := slotBound_perform_le s context instruction
      split at h
      · next hp =>
        cases h
        rwa [hp] at bound
      · cases h
      · cases h

/-- Every instruction carried out leaves fewer slots. -/
theorem slotBound_step {s s' : BodyState} {context : BodyContext}
    (h : s.step context = .next s') : s'.slotBound < s.slotBound := by
  simp only [step] at h
  split at h
  · cases h
  · split at h
    · cases h
    · split at h
      · cases h
      · cases h
      · cases h
      · next hr => exact Nat.lt_of_le_of_lt (slotBound_execute h) (slotBound_afterRead hr)

def run (s : BodyState) (context : BodyContext) : BodyState × BodyEnd :=
  match _h : s.step context with
  | .next s' => run s' context
  | .ended s' ending => (s', ending)
termination_by s.slotBound
decreasing_by exact slotBound_step _h

end BodyState

end DeltaCoding
