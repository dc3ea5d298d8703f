import DeltaCoding.Header.Window

/-!
# Reading a header moves forward

No header step moves its cursor back (`Forward`), whether it succeeds or stops, and a header that is
read whole takes at least one byte (`Consuming`).

Such properties are shown of the single fields. A property that sequences of steps keep is `Closed`,
and then whole headers have it (`Closed.parse`).
-/

namespace DeltaCoding

namespace HeaderStep

/-! ## Steps one after the other -/

theorem bind_ok {α β : Type} {step : HeaderStep α} {next : α → HeaderStep β} {s s' : HeaderState}
    {a : α} (h : step s = (.ok a, s')) : (step >>= next) s = next a s' := by
  change ExceptT.bindCont next (step s).1 (step s).2 = _
  rw [h]
  rfl

theorem bind_error {α β : Type} {step : HeaderStep α} {next : α → HeaderStep β}
    {s s' : HeaderState} {stop : ParseStop} (h : step s = (.error stop, s')) :
    (step >>= next) s = (.error stop, s') := by
  change ExceptT.bindCont next (step s).1 (step s).2 = _
  rw [h]
  rfl

/-! ## Moving forward -/

def Forward {α : Type} (step : HeaderStep α) : Prop :=
  ∀ s : HeaderState, s.cursor.Reaches (step s).2.cursor

theorem forward_pure {α : Type} (a : α) : Forward (pure a) :=
  fun _ => .refl _

theorem forward_malformed {α : Type} (error : FormatError) :
    Forward (malformed error : HeaderStep α) :=
  fun _ => .refl _

theorem Forward.bind {α β : Type} {step : HeaderStep α} {next : α → HeaderStep β}
    (hs : Forward step) (hn : ∀ a, Forward (next a)) : Forward (step >>= next) := by
  intro s
  have reach := hs s
  rcases hstep : step s with ⟨outcome, s'⟩
  rw [hstep] at reach
  cases outcome with
  | ok a =>
    rw [bind_ok hstep]
    exact reach.trans (hn a s')
  | error stop =>
    rw [bind_error hstep]
    exact reach

theorem forward_field {α : Type} {parser : Parser α}
    (h : ∀ {c c' : Cursor} {a : α}, parser c = .ok (a, c') → c.Reaches c') :
    Forward (field parser) := by
  intro s
  simp only [field, ExceptT.mk]
  split
  · next a c hp => exact h hp
  · exact .refl _

theorem lengthRead_run (s : HeaderState) : lengthRead s =
    if s.cursor.offset < s.deltaStart then (.error .breach, s)
    else (.ok (s.cursor.offset - s.deltaStart), s) := by
  simp only [lengthRead, bind, ExceptT.bind, ExceptT.mk, ExceptT.bindCont, StateT.bind, get,
    getThe, MonadStateOf.get, liftM, monadLift, MonadLift.monadLift, ExceptT.lift, Functor.map,
    StateT.map, StateT.get, pure]
  split <;> rfl

theorem forward_lengthRead : Forward lengthRead := by
  intro s
  rw [lengthRead_run]
  split <;> exact .refl _

/-! ## Properties of whole headers -/

/-- A property of header steps that the single fields have and that sequences of steps keep. -/
structure Closed (P : ∀ {α : Type}, HeaderStep α → Prop) : Prop where
  pure : ∀ {α : Type} (a : α), P (Pure.pure a : HeaderStep α)
  malformed : ∀ {α : Type} (error : FormatError), P (HeaderStep.malformed error : HeaderStep α)
  bind : ∀ {α β : Type} {step : HeaderStep α} {next : α → HeaderStep β}, P step →
    (∀ a, P (next a)) → P (step >>= next)
  byte : P (field Parser.byte)
  int32 : P (field Varint.parseInt32)
  uint32 : P (field Varint.parseUInt32)
  start : ∀ deltaLength : Nat, P (modify fun s =>
    { s with deltaLength, deltaStart := s.cursor.offset } : HeaderStep PUnit)
  lengthRead : P HeaderStep.lengthRead
  declaredLength : P HeaderStep.declaredLength

namespace Closed

variable {P : ∀ {α : Type}, HeaderStep α → Prop}

theorem require (closed : Closed P) (check : Except FormatError Unit) :
    P (HeaderStep.require check) := by
  cases check with
  | ok u => exact closed.pure _
  | error e => exact closed.malformed _

theorem segmentRange (closed : Closed P) (bound : Nat) : P (HeaderStep.segmentRange bound) := by
  have position (length : Nat) : P (do
      let position ← field Varint.parseInt32
      if (position ≥ bound ∧ length > 0) ∨ position + length > bound then
        HeaderStep.malformed (.sourceSegmentOutOfRange position length bound)
      Pure.pure (position, length)) := by
    apply closed.bind closed.int32
    intro position
    split
    · exact closed.bind (closed.malformed _) fun _ => closed.pure _
    · exact closed.pure _
  -- The length comes first and can be out of range by itself.
  apply closed.bind closed.int32
  intro length
  split
  · exact closed.bind (closed.malformed _) fun _ => position length
  · exact position length

theorem indicatorAndSegment (closed : Closed P) (dictionarySize decoded : Nat)
    (allowTarget : Bool) :
    P (HeaderStep.indicatorAndSegment dictionarySize decoded allowTarget) := by
  apply closed.bind closed.byte
  intro byte
  dsimp only
  split
  · exact closed.malformed _
  · exact closed.pure _
  · exact closed.bind (closed.segmentRange _) fun _ => closed.pure _
  · split
    · exact closed.bind (closed.segmentRange _) fun _ => closed.pure _
    · exact closed.malformed _

theorem windowLengths (closed : Closed P) : P HeaderStep.windowLengths :=
  closed.bind closed.int32 fun deltaLength =>
    closed.bind (closed.start deltaLength) fun _ => closed.int32

theorem deltaIndicator (closed : Closed P) : P HeaderStep.deltaIndicator := by
  apply closed.bind closed.byte
  intro byte
  split
  · exact closed.malformed _
  · exact closed.pure _

theorem checksum? (closed : Closed P) (present : Bool) : P (HeaderStep.checksum? present) := by
  simp only [HeaderStep.checksum?]
  split
  · exact closed.bind closed.uint32 fun _ => closed.pure _
  · exact closed.pure _

theorem sectionLengths (closed : Closed P) (hasChecksum : Bool) :
    P (HeaderStep.sectionLengths hasChecksum) := by
  refine closed.bind closed.int32 fun data => closed.bind closed.int32 fun instructions =>
    closed.bind closed.int32 fun addresses => closed.bind (closed.checksum? _) fun checksum =>
      closed.bind closed.lengthRead fun read => closed.bind closed.declaredLength fun declared => ?_
  dsimp only
  split
  · exact closed.bind (closed.malformed _) fun _ => closed.pure _
  · exact closed.pure _

/-- What follows the source segment in a header. -/
theorem afterSegment (closed : Closed P) (context : WindowHeader.Context)
    (check : Nat → Except FormatError Unit) (indicator : WindowIndicator)
    (segment : SourceSegment) : P (do
      let targetLength ← HeaderStep.windowLengths
      HeaderStep.require (check targetLength)
      HeaderStep.deltaIndicator
      let sections ← HeaderStep.sectionLengths
        (context.version.hasExtensions && indicator.checksum)
      Pure.pure ({ segment, targetLength, sections } : WindowHeader)) :=
  closed.bind closed.windowLengths fun _ => closed.bind (closed.require _) fun _ =>
    closed.bind closed.deltaIndicator fun _ => closed.bind (closed.sectionLengths _) fun _ =>
      closed.pure _

/-- What the single fields have, the whole header has. -/
theorem parse (closed : Closed P) (context : WindowHeader.Context)
    (check : Nat → Except FormatError Unit) : P (WindowHeader.parse context check) :=
  closed.bind (closed.indicatorAndSegment _ _ _) fun p =>
    closed.afterSegment context check p.1 p.2

end Closed

theorem closed_forward : Closed Forward where
  pure := forward_pure
  malformed := forward_malformed
  bind := Forward.bind
  byte := forward_field Parser.reaches_byte
  int32 := forward_field fun h => (Varint.reaches_parse h).1
  uint32 := forward_field Varint.reaches_parseUInt32
  start _ _ := .refl _
  lengthRead := forward_lengthRead
  declaredLength _ := .refl _

/-! ## Taking at least one byte -/

def Consuming {α : Type} (step : HeaderStep α) : Prop :=
  ∀ (s s' : HeaderState) (a : α), step s = (.ok a, s') →
    s'.cursor.rest.length < s.cursor.rest.length

theorem Consuming.bind {α β : Type} {step : HeaderStep α} {next : α → HeaderStep β}
    (hs : Consuming step) (hn : ∀ a, Forward (next a)) : Consuming (step >>= next) := by
  intro s s' b hrun
  rcases hstep : step s with ⟨outcome, s₁⟩
  cases outcome with
  | ok a =>
    have short := hs s s₁ a hstep
    have reach := hn a s₁
    rw [bind_ok hstep] at hrun
    rw [hrun] at reach
    have := reach.length_le
    simp only at this
    omega
  | error stop =>
    rw [bind_error hstep] at hrun
    cases hrun

theorem consuming_field {α : Type} {parser : Parser α}
    (shorter : ∀ {c c' : Cursor} {a : α}, parser c = .ok (a, c') →
      c'.rest.length < c.rest.length) : Consuming (field parser) := by
  intro s s' a h
  unfold field ExceptT.mk at h
  dsimp only at h
  split at h
  · next a' c hp =>
    cases h
    exact shorter hp
  · cases h

theorem consuming_byte : Consuming (field Parser.byte) :=
  consuming_field fun h => by
    have := Parser.length_of_byte h
    omega

theorem consuming_indicatorAndSegment (dictionarySize decoded : Nat) (allowTarget : Bool) :
    Consuming (indicatorAndSegment dictionarySize decoded allowTarget) := by
  unfold indicatorAndSegment
  refine consuming_byte.bind fun byte => ?_
  dsimp only
  split
  · exact forward_malformed _
  · exact forward_pure _
  · exact (closed_forward.segmentRange _).bind fun _ => forward_pure _
  · split
    · exact (closed_forward.segmentRange _).bind fun _ => forward_pure _
    · exact forward_malformed _

end HeaderStep

namespace WindowHeader

theorem forward_parse (context : Context) (check : Nat → Except FormatError Unit) :
    HeaderStep.Forward (parse context check) :=
  HeaderStep.closed_forward.parse context check

theorem consuming_parse (context : Context) (check : Nat → Except FormatError Unit) :
    HeaderStep.Consuming (parse context check) :=
  (HeaderStep.consuming_indicatorAndSegment _ _ _).bind fun p =>
    HeaderStep.closed_forward.afterSegment context check p.1 p.2

end WindowHeader

end DeltaCoding
