import DeltaCoding.Decoder.Config
import DeltaCoding.Proofs.Header.Reading

/-!
# Window headers in words

The reader of a window header forms sums of lengths. Here they are formed in words, and a sum that is
none is a breach: lengths of sections are added as sizes, of which there are `words`, and counts of
bytes in a stream always have 64 bits. Where there is room, a header is read in words as it is read in
numbers (`WindowHeader.parseIn_eq`).
-/

namespace DeltaCoding

namespace Word

variable {words x y : Nat}

/-- The sum of two numbers, if it is below `words`. -/
def add? (words x y : Nat) : Option Nat :=
  if x + y < words then some (x + y) else none

theorem add?_eq_some (room : x + y < words) : add? words x y = some (x + y) :=
  if_pos room

theorem add?_eq_none (beyond : words ≤ x + y) : add? words x y = none :=
  if_neg (Nat.not_lt.2 beyond)

end Word

/-- The check with a sum in a word. There is no sum for a window that is too large by itself. -/
def DecoderConfig.checkLength? (config : DecoderConfig) (decoded targetLength : Nat) :
    Option (Except FormatError Unit) :=
  if targetLength > config.maxTargetWindow then
    some (.error (.limitExceeded .targetWindow targetLength config.maxTargetWindow))
  else do
    let total ← Word.add? UInt64.size decoded targetLength
    if total > config.maxTargetFile then
      pure (.error (.limitExceeded .targetFile total config.maxTargetFile))
    else
      match config.plannedTargetFile with
      | some planned =>
        pure (if total > planned then .error (.limitExceeded .plannedTargetFile total planned)
          else .ok ())
      | none => pure (.ok ())

theorem DecoderConfig.checkLength?_eq {config : DecoderConfig} {decoded targetLength : Nat}
    (room : decoded + targetLength < UInt64.size) :
    config.checkLength? decoded targetLength = some (config.checkLength decoded targetLength) := by
  simp only [checkLength?, checkLength, Word.add?_eq_some room, Option.bind_eq_bind, Option.bind_some]
  split
  · rfl
  · split
    · rfl
    · cases config.plannedTargetFile <;> rfl

/-- The sum of the lengths as a size. -/
def SectionLengths.total? (words : Nat) (sections : SectionLengths) : Option Nat := do
  let front ← Word.add? words sections.data sections.instructions
  Word.add? words front sections.addresses

theorem SectionLengths.total?_eq {words : Nat} {sections : SectionLengths}
    (wide : 3 * Varint.maxInt32 < words) (data : sections.data ≤ Varint.maxInt32)
    (instructions : sections.instructions ≤ Varint.maxInt32)
    (addresses : sections.addresses ≤ Varint.maxInt32) :
    sections.total? words = some sections.total ∧ sections.total ≤ 3 * Varint.maxInt32 := by
  have front : Word.add? words sections.data sections.instructions = some _ :=
    Word.add?_eq_some (by omega)
  refine ⟨?_, by simp only [total]; omega⟩
  rw [total?, front]
  exact Word.add?_eq_some (by omega)

/-- The offset at which the input at hand ends. -/
def HeaderState.endOffset (s : HeaderState) : Nat :=
  s.cursor.offset + s.cursor.rest.length

namespace HeaderStep

variable {α β : Type} {words : Nat} {s : HeaderState}

/-- The value of a sum, or a breach if it has none. -/
def word : Option α → HeaderStep α
  | some a => pure a
  | none => throw .breach

theorem bind_congr_left {step step' : HeaderStep α} {next : α → HeaderStep β}
    (same : step s = step' s) : (step >>= next) s = (step' >>= next) s := by
  change ExceptT.bindCont next (step s).1 (step s).2 = _
  rw [same]
  rfl

theorem Safe.bind_congr_forward {step : HeaderStep α} {f g : α → HeaderStep β} {mid : α → Prop}
    (hs : Safe step mid) (forward : Forward step)
    (same : ∀ a, mid a → ∀ s' : HeaderState, s'.Started → s'.endOffset = s.endOffset →
      f a s' = g a s') (started : s.Started) : (step >>= f) s = (step >>= g) s := by
  rcases hstep : step s with ⟨outcome, s'⟩
  obtain ⟨started', -, yields⟩ := hs s outcome s' started hstep
  have ends := (forward s).offset_add_length
  rw [hstep] at ends
  cases outcome with
  | ok a =>
    rw [bind_ok hstep, bind_ok hstep]
    exact same a (yields a rfl) s' started' ends
  | error stop => rw [bind_error hstep, bind_error hstep]

/-- Reads the section lengths with sums in words. -/
def sectionLengthsIn (words : Nat) (hasChecksum : Bool) : HeaderStep SectionLengths := do
  let data ← field Varint.parseInt32
  let instructions ← field Varint.parseInt32
  let addresses ← field Varint.parseInt32
  let checksum ← checksum? hasChecksum
  let sections : SectionLengths := { data, instructions, addresses, checksum }
  let read ← lengthRead
  let total ← word (sections.total? words)
  let actual ← word (Word.add? UInt64.size read total)
  let declared ← declaredLength
  if actual ≠ declared then malformed (.encodingLengthMismatch declared actual)
  pure sections

theorem sectionLengthsIn_eq (wide : 3 * Varint.maxInt32 < words) (hasChecksum : Bool)
    (started : s.Started) (room : s.endOffset + 3 * Varint.maxInt32 < UInt64.size) :
    sectionLengthsIn words hasChecksum s = sectionLengths hasChecksum s := by
  refine safe_int32.bind_congr_forward closed_forward.int32 (fun data dataField s₁ started₁ ends₁ => ?_)
    started
  refine safe_int32.bind_congr_forward closed_forward.int32
    (fun instructions instructionsField s₂ started₂ ends₂ => ?_) started₁
  refine safe_int32.bind_congr_forward closed_forward.int32
    (fun addresses addressesField s₃ started₃ ends₃ => ?_) started₂
  refine (safe_checksum? hasChecksum).bind_congr_forward (closed_forward.checksum? hasChecksum)
    (fun checksum _ s₄ started₄ ends₄ => ?_) started₃
  have read := lengthRead_run s₄
  rw [if_neg (Nat.not_lt.2 started₄)] at read
  rw [bind_ok read, bind_ok read]
  obtain ⟨total, small⟩ := @SectionLengths.total?_eq words { data, instructions, addresses, checksum }
    wide dataField instructionsField addressesField
  have whole : s₄.endOffset = s.endOffset := by omega
  simp only [HeaderState.endOffset] at whole room
  have actual := @Word.add?_eq_some UInt64.size (s₄.cursor.offset - s₄.deltaStart)
    (SectionLengths.total { data, instructions, addresses, checksum }) (by omega)
  simp only [total, actual, word, pure_bind]

end HeaderStep

namespace WindowHeader

variable {words : Nat} {s : HeaderState}

/-- Reads a window header with sums in words. -/
def parseIn (words : Nat) (context : Context)
    (check? : Nat → Option (Except FormatError Unit)) : HeaderStep WindowHeader := do
  let (indicator, segment) ← HeaderStep.indicatorAndSegment context.dictionarySize
    context.decoded context.allowTarget
  let targetLength ← HeaderStep.windowLengths
  let checked ← HeaderStep.word (check? targetLength)
  HeaderStep.require checked
  HeaderStep.deltaIndicator
  let sections ← HeaderStep.sectionLengthsIn words
    (context.version.hasExtensions && indicator.checksum)
  pure { segment, targetLength, sections }

/-- Where there is room for the sums, a header is read as with numbers. -/
theorem parseIn_eq {context : Context} {check : Nat → Except FormatError Unit}
    {check? : Nat → Option (Except FormatError Unit)} (wide : 3 * Varint.maxInt32 < words)
    (checks : ∀ n ≤ Varint.maxInt32, check? n = some (check n)) (started : s.Started)
    (room : s.endOffset + 3 * Varint.maxInt32 < UInt64.size) :
    parseIn words context check? s = parse context check s := by
  refine (HeaderStep.safe_indicatorAndSegment _ _ _).bind_congr_forward
    (HeaderStep.closed_forward.indicatorAndSegment _ _ _) (fun p _ s₁ started₁ ends₁ => ?_) started
  refine HeaderStep.safe_windowLengths.bind_congr_forward HeaderStep.closed_forward.windowLengths
    (fun n field s₂ started₂ ends₂ => ?_) started₁
  simp only [checks n field, HeaderStep.word, pure_bind]
  refine HeaderStep.safe_require.bind_congr_forward (HeaderStep.closed_forward.require _)
    (fun _ _ s₃ started₃ ends₃ => ?_) started₂
  refine HeaderStep.safe_deltaIndicator.bind_congr_forward HeaderStep.closed_forward.deltaIndicator
    (fun _ _ s₄ started₄ ends₄ => ?_) started₃
  have sections := HeaderStep.sectionLengthsIn_eq wide (context.version.hasExtensions && p.1.checksum)
    started₄ (by omega)
  exact HeaderStep.bind_congr_left sections

end WindowHeader

end DeltaCoding
