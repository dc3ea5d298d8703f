import DeltaCoding.Decoder.Stream

/-!
# Describing deltas

A delta can be described without its dictionary, from what its windows declare and from its opcodes:
where each window starts, what it refers to, how long its sections are, and how many bytes its
instructions make. Addresses are not resolved and nothing is copied. Only a code table of the
delta's own is decoded, because its opcodes cannot be read otherwise.
-/

namespace DeltaCoding

/-- How many instructions of each kind there are, and how many bytes they make. -/
structure InstructionCounts where
  adds : Nat := 0
  addBytes : Nat := 0
  runs : Nat := 0
  runBytes : Nat := 0
  copies : Nat := 0
  copyBytes : Nat := 0
deriving DecidableEq, Inhabited

/-- What a window declares. -/
structure WindowSummary where
  /-- The stream offset of the window. -/
  offset : Nat
  header : WindowHeader
  interleaved : Bool
  counts : InstructionCounts
deriving DecidableEq, Inhabited

/-- What a delta declares. -/
structure DeltaSummary where
  header : FileHeader
  /-- The length of the delta of the code table, if there is one. -/
  tableDelta : Option Nat
  windows : List WindowSummary
deriving DecidableEq

/-- Why a delta cannot be described. -/
inductive InspectError where
  | truncated (offset : Nat)
  | malformed (offset : Nat) (error : FormatError)
  /-- The delta of the code table cannot be decoded. -/
  | tableDelta (error : DecodeError)
  /-- The code table is not valid. -/
  | table (fault : TableFault)
  /-- There is no first SAME mode, so that inline addresses cannot be told apart. -/
  | breach
deriving DecidableEq

namespace InspectError

def ofStop (offset : Nat) : ParseStop → InspectError
  | .needMoreData => truncated offset
  | .malformed error => malformed offset error
  | .breach => breach

def message : InspectError → String
  | truncated offset => s!"delta truncated at offset {offset}"
  | malformed offset error => s!"malformed delta at offset {offset}: {error.message}"
  | tableDelta error => s!"code table: {error.message}"
  | table fault => s!"code table: {(FormatError.invalidCodeTable fault).message}"
  | breach => "precondition violated"

end InspectError

namespace InstructionCounts

def add (counts : InstructionCounts) : Instruction → InstructionCounts
  | .add size =>
    { counts with adds := counts.adds + 1, addBytes := counts.addBytes + size }
  | .run size =>
    { counts with runs := counts.runs + 1, runBytes := counts.runBytes + size }
  | .copy size _ =>
    { counts with copies := counts.copies + 1, copyBytes := counts.copyBytes + size }

end InstructionCounts

namespace Instruction

def skipInline (firstSameMode : Nat) : Instruction → Parser Unit
  | add size => discard (Parser.bytes size)
  | run _ => discard Parser.byte
  | copy _ mode =>
    if mode ≥ firstSameMode then discard Parser.byte else discard Varint.parseInt32

theorem reaches_skipInline {firstSameMode : Nat} {instruction : Instruction} {c c' : Cursor}
    (h : instruction.skipInline firstSameMode c = .ok ((), c')) : c.Reaches c' := by
  have discarded {α : Type} {p : Parser α} (hp : discard p c = .ok ((), c')) :
      ∃ a, p c = .ok (a, c') := by
    simp only [discard, Functor.discard, Functor.mapConst, Function.comp, StateT.map, bind,
      Except.bind] at hp
    cases hpc : p c with
    | error stop =>
      rw [hpc] at hp
      cases hp
    | ok r =>
      obtain ⟨a, c₁⟩ := r
      rw [hpc] at hp
      cases hp
      exact ⟨a, rfl⟩
  cases instruction with
  | add size =>
    obtain ⟨_, h⟩ := discarded h
    exact Parser.reaches_bytes h
  | run size =>
    obtain ⟨_, h⟩ := discarded h
    exact Parser.reaches_byte h
  | copy size mode =>
    by_cases hm : mode ≥ firstSameMode
    · simp only [skipInline, hm, if_true] at h
      obtain ⟨_, h⟩ := discarded h
      exact Parser.reaches_byte h
    · simp only [skipInline, hm, if_false] at h
      obtain ⟨_, h⟩ := discarded h
      exact (Varint.reaches_parse h).1

end Instruction

namespace WindowSummary

/-- What an opcode stream is read with. -/
structure Opcodes where
  table : CodeTable
  firstSameMode : Nat

def count (firstSameMode : Nat) (interleaved : Bool) (reader : InstructionReader) (c : Cursor)
    (counts : InstructionCounts) : Except ParseStop InstructionCounts :=
  match _hr : reader.next c with
  | (.error stop, _, _) => .error stop
  | (.ok none, _, _) => .ok counts
  | (.ok (some instruction), reader', c₁) =>
    if interleaved then
      match _hs : instruction.skipInline firstSameMode c₁ with
      | .error stop => .error stop
      | .ok ((), c₂) => count firstSameMode interleaved reader' c₂ (counts.add instruction)
    else count firstSameMode interleaved reader' c₁ (counts.add instruction)
termination_by InstructionReader.slotBound reader.pending c
decreasing_by
  · have shorter := @InstructionReader.slotBound_next reader c instruction (by rw [_hr])
    have reach := (Instruction.reaches_skipInline _hs).length_le
    rw [_hr] at shorter
    simp only [InstructionReader.slotBound] at *
    omega
  · have shorter := @InstructionReader.slotBound_next reader c instruction (by rw [_hr])
    rw [_hr] at shorter
    exact shorter

/-- Reads a window header behind `decoded` target bytes, whatever the dictionary is. -/
def parseHeader (version : Version) (decoded : Nat) : HeaderStep WindowHeader :=
  WindowHeader.parse
    { version := version
      dictionarySize := UInt64.size - 1
      decoded := decoded
      allowTarget := true }
    fun _ => .ok ()

def describe (version : Version) (opcodes : Opcodes) (decoded : Nat) (c : Cursor) :
    Except InspectError (WindowSummary × Cursor) :=
  match parseHeader version decoded (.ofCursor c) with
  | (.error stop, s) => .error (.ofStop s.cursor.offset stop)
  | (.ok header, s) =>
    let body := s.cursor
    let sections := header.sections
    if body.has sections.total then
      let instructions := (body.skip sections.data).window sections.instructions
      let interleaved := header.isInterleaved version
      match count opcodes.firstSameMode interleaved (.ofTable opcodes.table) instructions {} with
      | .error stop => .error (.ofStop instructions.offset stop)
      | .ok counts => .ok (⟨c.offset, header, interleaved, counts⟩, body.skip sections.total)
    else .error (.truncated body.offset)

theorem length_describe_lt {version : Version} {opcodes : Opcodes} {decoded : Nat}
    {c behind : Cursor} {window : WindowSummary}
    (h : describe version opcodes decoded c = .ok (window, behind)) :
    behind.rest.length < c.rest.length := by
  simp only [describe] at h
  split at h
  · cases h
  · next header s hparse =>
    have shorter := WindowHeader.consuming_parse _ _ _ _ _ hparse
    simp only [HeaderState.ofCursor] at shorter
    split at h
    · split at h
      · cases h
      · cases h
        simp only [Cursor.skip, List.length_drop]
        omega
    · cases h

/-- Describes windows until the input ends or, if `stopAt` is given, so many target bytes have been
described. Hands out the cursor behind the last window. -/
def describeAll (version : Version) (opcodes : Opcodes) (stopAt : Option Nat) (decoded : Nat)
    (c : Cursor) : Except InspectError (List WindowSummary × Cursor) :=
  if c.isEmpty || stopAt.any (· ≤ decoded) then .ok ([], c)
  else
    match _h : describe version opcodes decoded c with
    | .error error => .error error
    | .ok (window, behind) =>
      match describeAll version opcodes stopAt (decoded + window.header.targetLength) behind with
      | .error error => .error error
      | .ok (windows, behind) => .ok (window :: windows, behind)
termination_by c.rest.length
decreasing_by exact length_describe_lt _h

end WindowSummary

namespace DeltaSummary

def standardOpcodes : WindowSummary.Opcodes :=
  ⟨.standard, CacheSizes.standard.firstSameMode⟩

/-- Reads a file header; errors count from where the cursor is. -/
def parseFileHeader (c : Cursor) : Except InspectError (FileHeader × Cursor) :=
  match FileHeader.parse c with
  | .error stop => .error (.ofStop c.offset stop)
  | .ok parsed => .ok parsed

/-- Reads a code table at `c`, for caches of the given sizes. Hands out the opcodes, the length of
the table's delta, and the cursor behind it. -/
def readTable (sizes : CacheSizes) (c : Cursor) :
    Except InspectError (WindowSummary.Opcodes × Nat × Cursor) := do
  let (header, windows) ← parseFileHeader c
  let (_, behind) ← WindowSummary.describeAll header.version standardOpcodes
    (some CodeTable.storedSize) 0 windows
  -- The windows were walked for their lengths; now the table is decoded from exactly that part.
  let length := behind.offset - c.offset
  let stored ← (decodeMemory CodeTable.standardBytes (c.rest.take length)).mapError
    InspectError.tableDelta
  let table ← (CodeTable.ofBytes stored).mapError InspectError.table
  (table.validate sizes.maxMode).mapError InspectError.table
  if sizes.resolvable then pure (⟨table, sizes.firstSameMode⟩, length, behind)
  else .error .breach

def ofDelta (delta : List UInt8) : Except InspectError DeltaSummary := do
  let (header, c) ← parseFileHeader (.ofBytes delta)
  match header.cacheSizes with
  | none =>
    let (windows, _) ← WindowSummary.describeAll header.version standardOpcodes none 0 c
    pure { header, tableDelta := none, windows }
  | some (near, same) =>
    let sizes ← (CacheSizes.check near.toNat same.toNat).mapError (.malformed c.offset)
    let (opcodes, length, c) ← readTable sizes c
    let (windows, _) ← WindowSummary.describeAll header.version opcodes none 0 c
    pure { header, tableDelta := some length, windows }

def targetLength (summary : DeltaSummary) : Nat :=
  summary.windows.foldl (fun total window => total + window.header.targetLength) 0

/-! ## As text -/

def segmentText : SourceSegment → String
  | .none => "none"
  | .dictionary position length => s!"dictionary [{position}, {position + length})"
  | .target position length => s!"target [{position}, {position + length})"

def versionName : Version → String
  | .standard => "RFC 3284"
  | .sdch => "SDCH"

def windowLines (number : Nat) (window : WindowSummary) : List String :=
  let header := window.header
  let sections := header.sections
  let counts := window.counts
  [ "",
    s!"window {number} at offset {window.offset}:",
    s!"  source segment:     {segmentText header.segment}",
    s!"  target length:      {header.targetLength}",
    if window.interleaved then s!"  interleaved:        {sections.instructions} bytes"
    else
      s!"  sections:           data {sections.data}, instructions {sections.instructions}, " ++
        s!"addresses {sections.addresses}" ] ++
    (sections.checksum.map fun checksum => s!"  adler32:            {Text.hex 8 checksum}").toList ++
  [ s!"  instructions:       add {counts.adds} ({counts.addBytes} bytes), " ++
      s!"copy {counts.copies} ({counts.copyBytes} bytes), " ++
      s!"run {counts.runs} ({counts.runBytes} bytes)" ]

def lines (summary : DeltaSummary) : List String :=
  let version := summary.header.version
  [ s!"VCDIFF version:       {Text.hexByte version.toByte} ({versionName version})",
    match summary.header.cacheSizes, summary.tableDelta with
    | some (near, same), some length =>
      s!"code table:           custom (near {near}, same {same}, {length} byte delta)"
    | _, _ => "code table:           default",
    s!"windows:              {summary.windows.length}" ] ++
    (summary.windows.mapIdx windowLines).flatten

end DeltaSummary

end DeltaCoding
