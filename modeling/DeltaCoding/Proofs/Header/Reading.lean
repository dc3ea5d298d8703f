import DeltaCoding.Header.Progress
import DeltaCoding.Proofs.Varint

/-!
# What header steps depend on, and what they yield

A header step is stable: more input behind what it has read changes nothing but a call for more
(`Stable`), and it calls for more only if it takes some of it (`Needs`). It does the same wherever
the header stands (`Shifts`). A header step is safe: it never meets a state that it has no answer
for, and what it yields is within the bounds that it was read against (`Safe`). All of this is shown
of single fields and carried over to whole headers through `bind`.
-/

namespace DeltaCoding

namespace HeaderState

/-- The same place in the header once `more` bytes have arrived. -/
def extend (s : HeaderState) (more : List UInt8) : HeaderState :=
  { s with cursor := s.cursor.extend more }

theorem extend_inj {s s' : HeaderState} {more : List UInt8} (h : s.extend more = s'.extend more) :
    s = s' := by
  obtain ⟨⟨offset, rest⟩, deltaLength, deltaStart⟩ := s
  obtain ⟨⟨offset', rest'⟩, deltaLength', deltaStart'⟩ := s'
  simp only [extend, Cursor.extend, mk.injEq, Cursor.mk.injEq, List.append_cancel_right_eq] at h
  obtain ⟨⟨rfl, rfl⟩, rfl, rfl⟩ := h
  rfl

/-- The delta encoding does not start ahead. -/
def Started (s : HeaderState) : Prop :=
  s.deltaStart ≤ s.cursor.offset

theorem started_ofCursor (c : Cursor) : (ofCursor c).Started :=
  Nat.le_refl _

end HeaderState

namespace HeaderStep

variable {α β : Type}

/-! ## Stability -/

/-- Only a call for more input can change when more input arrives. -/
def Stable (step : HeaderStep α) : Prop :=
  ∀ s more, (step s).1 ≠ .error .needMoreData →
    step (s.extend more) = ((step s).1, (step s).2.extend more)

theorem Stable.bind {step : HeaderStep α} {next : α → HeaderStep β} (hs : Stable step)
    (hn : ∀ a, Stable (next a)) : Stable (step >>= next) := by
  intro s more final
  rcases hstep : step s with ⟨outcome, s'⟩
  have extended := hs s more
  rw [hstep] at extended
  cases outcome with
  | ok a =>
    rw [bind_ok hstep] at final ⊢
    rw [bind_ok (extended (fun h => by cases h))]
    exact hn a s' more final
  | error stop =>
    rw [bind_error hstep] at final ⊢
    rw [bind_error (extended fun h => final (by cases h; rfl))]

theorem stable_field {parser : Parser α} (h : parser.Local) : Stable (field parser) := by
  intro s more final
  simp only [field, ExceptT.mk, HeaderState.extend] at final ⊢
  cases hp : parser s.cursor with
  | ok r =>
    obtain ⟨a, c⟩ := r
    rw [h.extend_ok hp]
  | error stop =>
    rw [hp] at final
    rw [h.extend_error hp (fun needMore => final (by rw [needMore]))]

theorem stable_lengthRead : Stable lengthRead := by
  intro s more _
  by_cases ahead : s.cursor.offset < s.deltaStart
  · have ahead' : (s.extend more).cursor.offset < (s.extend more).deltaStart := ahead
    rw [lengthRead_run, lengthRead_run, if_pos ahead, if_pos ahead']
  · have ahead' : ¬ (s.extend more).cursor.offset < (s.extend more).deltaStart := ahead
    rw [lengthRead_run, lengthRead_run, if_neg ahead, if_neg ahead']
    rfl

/-- A stable step calls for more as long as bytes of what it yields are missing. -/
theorem Stable.waits {step : HeaderStep α} (hs : Stable step) {s s' : HeaderState} {a : α}
    {missing : List UInt8} (yields : step (s.extend missing) = (.ok a, s'))
    (ends : s'.cursor.rest = []) (something : missing ≠ []) :
    (step s).1 = .error .needMoreData := by
  refine Classical.byContradiction fun final => ?_
  have extended := hs s missing final
  rw [yields] at extended
  have left := congrArg (fun r => r.2.cursor.rest) extended
  simp only [ends, HeaderState.extend, Cursor.extend_rest] at left
  exact something (List.append_eq_nil_iff.1 left.symm).2

theorem closed_stable : Closed Stable where
  pure _ _ _ _ := rfl
  malformed _ _ _ _ := rfl
  bind := Stable.bind
  byte := stable_field Parser.local_byte
  int32 := stable_field Varint.local_parseInt32
  uint32 := stable_field Varint.local_parseUInt32
  start _ _ _ _ := rfl
  lengthRead := stable_lengthRead
  declaredLength _ _ _ := rfl

/-! ## Calls for more input -/

/-- The step calls for more input only if what it yields takes some of it. -/
structure Needs (step : HeaderStep α) : Prop where
  forward : Forward step
  stable : Stable step
  beyond : ∀ {s s' : HeaderState} {more : List UInt8} {a : α},
    (step s).1 = .error .needMoreData → step (s.extend more) = (.ok a, s') →
      s'.cursor.rest.length < more.length

theorem Needs.bind {step : HeaderStep α} {next : α → HeaderStep β} (hs : Needs step)
    (hn : ∀ a, Needs (next a)) : Needs (step >>= next) where
  forward := hs.forward.bind fun a => (hn a).forward
  stable := hs.stable.bind fun a => (hn a).stable
  beyond := by
    intro s s' more b waits yields
    rcases hstep : step s with ⟨outcome, s₁⟩
    rcases hstep' : step (s.extend more) with ⟨outcome', s₂⟩
    cases outcome' with
    | error stop =>
      rw [bind_error hstep'] at yields
      cases yields
    | ok a =>
      rw [bind_ok hstep'] at yields
      cases outcome with
      | ok a' =>
        rw [bind_ok hstep] at waits
        have extended := hs.stable s more (by rw [hstep]; intro h; cases h)
        rw [hstep', hstep] at extended
        cases extended
        exact (hn a).beyond waits yields
      | error stop =>
        rw [bind_error hstep] at waits
        cases waits
        have beyond := hs.beyond (by rw [hstep]) hstep'
        have reaches := (hn a).forward s₂
        rw [yields] at reaches
        exact Nat.lt_of_le_of_lt reaches.length_le beyond

theorem needs_field {parser : Parser α} (h : parser.Local) : Needs (field parser) where
  forward := forward_field fun read => by
    obtain ⟨bytes, takes, -⟩ := h.ok read
    exact takes.reaches
  stable := stable_field h
  beyond := by
    intro s s' more a waits yields
    simp only [field, ExceptT.mk, HeaderState.extend] at waits yields
    cases hp : parser s.cursor with
    | ok r => rw [hp] at waits; cases waits
    | error stop =>
      rw [hp] at waits
      cases hp' : parser (s.cursor.extend more) with
      | error stop' => rw [hp'] at yields; cases yields
      | ok r =>
        rw [hp'] at yields
        cases yields
        cases waits
        exact h.needs hp hp'

theorem needs_final {step : HeaderStep α} (forward : Forward step) (stable : Stable step)
    (final : ∀ s, (step s).1 ≠ .error .needMoreData) : Needs step where
  forward := forward
  stable := stable
  beyond waits := absurd waits (final _)

theorem closed_needs : Closed Needs where
  pure a := needs_final (closed_forward.pure a) (closed_stable.pure a) fun _ h => by cases h
  malformed e := needs_final (closed_forward.malformed e) (closed_stable.malformed e)
    fun _ h => by cases h
  bind := Needs.bind
  byte := needs_field Parser.local_byte
  int32 := needs_field Varint.local_parseInt32
  uint32 := needs_field Varint.local_parseUInt32
  start n := needs_final (closed_forward.start n) (closed_stable.start n) fun _ h => by cases h
  lengthRead := needs_final forward_lengthRead stable_lengthRead fun s h => by
    rw [lengthRead_run] at h
    split at h <;> cases h
  declaredLength := needs_final closed_forward.declaredLength closed_stable.declaredLength
    fun _ h => by cases h

end HeaderStep

namespace HeaderState

/-- The same place in the header with `n` more bytes in front of the stream. -/
def shift (s : HeaderState) (n : Nat) : HeaderState :=
  { s with cursor := s.cursor.shift n, deltaStart := s.deltaStart + n }

end HeaderState

namespace HeaderStep

variable {α β : Type}

/-! ## Places -/

/-- Where the header stands is of no account. -/
def Shifts (step : HeaderStep α) : Prop :=
  ∀ s n, step (s.shift n) = ((step s).1, (step s).2.shift n)

theorem Shifts.bind {step : HeaderStep α} {next : α → HeaderStep β} (hs : Shifts step)
    (hn : ∀ a, Shifts (next a)) : Shifts (step >>= next) := by
  intro s n
  rcases hstep : step s with ⟨outcome, s'⟩
  have shifted := hs s n
  rw [hstep] at shifted
  cases outcome with
  | ok a =>
    rw [bind_ok hstep, bind_ok shifted]
    exact hn a s' n
  | error stop => rw [bind_error hstep, bind_error shifted]

theorem shifts_field {parser : Parser α} (h : parser.Local) : Shifts (field parser) := by
  intro s n
  simp only [field, ExceptT.mk, HeaderState.shift, h.shift]
  cases parser s.cursor <;> rfl

theorem shifts_lengthRead : Shifts lengthRead := by
  intro s n
  have same : s.cursor.offset + n - (s.deltaStart + n) = s.cursor.offset - s.deltaStart := by omega
  simp only [lengthRead_run, HeaderState.shift, Cursor.shift_offset, Nat.add_lt_add_iff_right, same]
  split <;> rfl

theorem closed_shifts : Closed Shifts where
  pure _ _ _ := rfl
  malformed _ _ _ := rfl
  bind := Shifts.bind
  byte := shifts_field Parser.local_byte
  int32 := shifts_field Varint.local_parseInt32
  uint32 := shifts_field Varint.local_parseUInt32
  start _ _ _ := rfl
  lengthRead := shifts_lengthRead
  declaredLength _ _ := rfl

/-! ## Safety -/

/-- From a state whose delta encoding does not start ahead, the step has an answer, leaves such a
state behind, and yields only values with the property. -/
def Safe (step : HeaderStep α) (post : α → Prop) : Prop :=
  ∀ s outcome s', s.Started → step s = (outcome, s') →
    s'.Started ∧ outcome ≠ .error .breach ∧ ∀ a, outcome = .ok a → post a

theorem safe_pure {post : α → Prop} {a : α} (h : post a) : Safe (pure a) post := by
  intro s outcome s' started run
  cases run
  refine ⟨started, (fun h => by cases h), ?_⟩
  intro b equal
  cases equal
  exact h

theorem safe_malformed (error : FormatError) (post : α → Prop) :
    Safe (malformed error : HeaderStep α) post := by
  intro s outcome s' started run
  cases run
  exact ⟨started, (fun h => by cases h), fun _ h => by cases h⟩

theorem Safe.bind {step : HeaderStep α} {next : α → HeaderStep β} {mid : α → Prop}
    {post : β → Prop} (hs : Safe step mid) (hn : ∀ a, mid a → Safe (next a) post) :
    Safe (step >>= next) post := by
  intro s outcome s'' started run
  rcases hstep : step s with ⟨first, s'⟩
  obtain ⟨started', answers, yields⟩ := hs s first s' started hstep
  cases first with
  | ok a =>
    rw [bind_ok hstep] at run
    exact hn a (yields a rfl) s' outcome s'' started' run
  | error stop =>
    rw [bind_error hstep] at run
    cases run
    exact ⟨started', fun h => answers (by cases h; rfl), fun _ h => by cases h⟩

theorem Safe.mono {step : HeaderStep α} {mid post : α → Prop} (hs : Safe step mid)
    (h : ∀ a, mid a → post a) : Safe step post := by
  intro s outcome s' started run
  obtain ⟨started', answers, yields⟩ := hs s outcome s' started run
  exact ⟨started', answers, fun a ha => h a (yields a ha)⟩

theorem Safe.bind_congr {step : HeaderStep α} {f g : α → HeaderStep β} {mid : α → Prop}
    (hs : Safe step mid) (same : ∀ a, mid a → ∀ s : HeaderState, s.Started → f a s = g a s)
    {s : HeaderState} (started : s.Started) : (step >>= f) s = (step >>= g) s := by
  rcases hstep : step s with ⟨outcome, s'⟩
  obtain ⟨started', -, yields⟩ := hs s outcome s' started hstep
  cases outcome with
  | ok a =>
    rw [bind_ok hstep, bind_ok hstep]
    exact same a (yields a rfl) s' started'
  | error stop => rw [bind_error hstep, bind_error hstep]

theorem safe_field {parser : Parser α} {post : α → Prop} (answers : parser.Answers)
    (reaches : ∀ {c c' : Cursor} {a : α}, parser c = .ok (a, c') → c.Reaches c')
    (yields : ∀ {c c' : Cursor} {a : α}, parser c = .ok (a, c') → post a) :
    Safe (field parser) post := by
  intro s outcome s' started run
  simp only [field, ExceptT.mk] at run
  cases hp : parser s.cursor with
  | ok r =>
    obtain ⟨a, c⟩ := r
    rw [hp] at run
    cases run
    obtain ⟨read, -, offset⟩ := reaches hp
    refine ⟨?_, (fun h => by cases h), ?_⟩
    · simp only [HeaderState.Started, offset] at started ⊢
      omega
    · intro b equal
      cases equal
      exact yields hp
  | error stop =>
    rw [hp] at run
    cases run
    exact ⟨started, fun h => answers _ (by rw [hp]; cases h; rfl), fun _ h => by cases h⟩

theorem safe_byte : Safe (field Parser.byte) fun _ => True :=
  safe_field Parser.answers_byte Parser.reaches_byte fun _ => trivial

theorem safe_int32 : Safe (field Varint.parseInt32) fun n => n ≤ Varint.maxInt32 :=
  safe_field Varint.answers_parseInt32 (fun h => (Varint.reaches_parse h).1) Varint.parseInt32_le

theorem safe_uint32 : Safe (field Varint.parseUInt32) fun n => n ≤ Varint.maxUInt32 :=
  safe_field Varint.answers_parseUInt32 Varint.reaches_parseUInt32 Varint.parseUInt32_le

theorem safe_require {check : Except FormatError Unit} :
    Safe (require check) fun _ => check = .ok () := by
  cases check with
  | ok u => exact safe_pure rfl
  | error e => exact safe_malformed _ _

theorem safe_lengthRead : Safe lengthRead fun _ => True := by
  intro s outcome s' started run
  rw [lengthRead_run, if_neg (Nat.not_lt.2 started)] at run
  cases run
  exact ⟨started, (fun h => by cases h), fun _ _ => trivial⟩

theorem safe_declaredLength : Safe declaredLength fun _ => True := by
  intro s outcome s' started run
  cases run
  exact ⟨started, (fun h => by cases h), fun _ _ => trivial⟩

theorem safe_segmentRange (bound : Nat) : Safe (segmentRange bound) fun p =>
    p.1 + p.2 ≤ bound ∧ p.1 ≤ Varint.maxInt32 ∧ p.2 ≤ Varint.maxInt32 := by
  have position (length : Nat) (fieldLength : length ≤ Varint.maxInt32) : Safe (do
      let position ← field Varint.parseInt32
      if (position ≥ bound ∧ length > 0) ∨ position + length > bound then
        malformed (.sourceSegmentOutOfRange position length bound)
      pure (position, length)) fun p =>
        p.1 + p.2 ≤ bound ∧ p.1 ≤ Varint.maxInt32 ∧ p.2 ≤ Varint.maxInt32 := by
    apply safe_int32.bind
    intro position fieldPosition
    split
    · exact (safe_malformed _ fun _ => False).bind fun _ h => h.elim
    · next inside => exact safe_pure ⟨by simp only; omega, fieldPosition, fieldLength⟩
  apply safe_int32.bind
  intro length fieldLength
  split
  · exact (safe_malformed _ fun _ => False).bind fun _ h => h.elim
  · exact position length fieldLength

end HeaderStep

/-- The segment lies within the dictionary or within what earlier windows have produced. -/
def SourceSegment.Within (segment : SourceSegment) (dictionarySize decoded : Nat)
    (allowTarget : Bool) : Prop :=
  match segment with
  | .none => True
  | .dictionary position length => position + length ≤ dictionarySize
  | .target position length => allowTarget = true ∧ position + length ≤ decoded

/-- Position and length fit their fields. -/
def SourceSegment.Fields : SourceSegment → Prop
  | none => True
  | dictionary position length => position ≤ Varint.maxInt32 ∧ length ≤ Varint.maxInt32
  | target position length => position ≤ Varint.maxInt32 ∧ length ≤ Varint.maxInt32

namespace HeaderStep

theorem safe_indicatorAndSegment (dictionarySize decoded : Nat) (allowTarget : Bool) :
    Safe (indicatorAndSegment dictionarySize decoded allowTarget)
      fun p => p.2.Within dictionarySize decoded allowTarget ∧ p.2.Fields := by
  apply safe_byte.bind
  intro byte _
  dsimp only
  split
  · exact safe_malformed _ _
  · exact safe_pure ⟨trivial, trivial⟩
  · exact (safe_segmentRange _).bind fun p inside => safe_pure inside
  · split
    · next allowed =>
      exact (safe_segmentRange _).bind fun p inside => safe_pure ⟨⟨allowed, inside.1⟩, inside.2⟩
    · exact safe_malformed _ _

theorem safe_windowLengths : Safe windowLengths fun n => n ≤ Varint.maxInt32 := by
  apply safe_int32.bind
  intro deltaLength _
  refine Safe.bind (show Safe _ fun _ => True from ?_) fun _ _ => safe_int32
  intro s outcome s' started run
  cases run
  exact ⟨Nat.le_refl _, (fun h => by cases h), fun _ _ => trivial⟩

theorem safe_deltaIndicator : Safe deltaIndicator fun _ => True := by
  apply safe_byte.bind
  intro byte _
  split
  · exact safe_malformed _ _
  · exact safe_pure trivial

theorem safe_checksum? (present : Bool) :
    Safe (checksum? present) fun checksum => ∀ n ∈ checksum, n ≤ Varint.maxUInt32 := by
  simp only [checksum?]
  split
  · refine safe_uint32.bind fun checksum field => safe_pure ?_
    rintro n ⟨⟩
    exact field
  · exact safe_pure fun _ h => by cases h

theorem safe_sectionLengths (hasChecksum : Bool) : Safe (sectionLengths hasChecksum)
    fun sections => ∀ n ∈ sections.checksum, n ≤ Varint.maxUInt32 := by
  refine safe_int32.bind fun data _ => safe_int32.bind fun instructions _ =>
    safe_int32.bind fun addresses _ => (safe_checksum? _).bind fun checksum field =>
      safe_lengthRead.bind fun read _ => safe_declaredLength.bind fun declared _ => ?_
  dsimp only
  split
  · exact (safe_malformed _ fun _ => True).bind fun _ _ => safe_pure field
  · exact safe_pure field

end HeaderStep

namespace WindowHeader

theorem stable_parse (context : Context) (check : Nat → Except FormatError Unit) :
    HeaderStep.Stable (parse context check) :=
  HeaderStep.closed_stable.parse context check

theorem needs_parse (context : Context) (check : Nat → Except FormatError Unit) :
    HeaderStep.Needs (parse context check) :=
  HeaderStep.closed_needs.parse context check

theorem shifts_parse (context : Context) (check : Nat → Except FormatError Unit) :
    HeaderStep.Shifts (parse context check) :=
  HeaderStep.closed_shifts.parse context check

/-- What the fields of a header say is within the bounds that it was read against. -/
structure Fits (header : WindowHeader) (context : Context)
    (check : Nat → Except FormatError Unit) : Prop where
  segment : header.segment.Within context.dictionarySize context.decoded context.allowTarget
  field : header.targetLength ≤ Varint.maxInt32
  checked : check header.targetLength = .ok ()

theorem safe_parse_fields (context : Context) (check : Nat → Except FormatError Unit) :
    HeaderStep.Safe (parse context check) fun header => header.Fits context check ∧
      header.segment.Fields ∧ ∀ n ∈ header.sections.checksum, n ≤ Varint.maxUInt32 :=
  (HeaderStep.safe_indicatorAndSegment _ _ _).bind fun _ segment =>
    HeaderStep.safe_windowLengths.bind fun _ field => HeaderStep.safe_require.bind fun _ checked =>
      HeaderStep.safe_deltaIndicator.bind fun _ _ =>
        (HeaderStep.safe_sectionLengths _).bind fun _ checksum =>
          HeaderStep.safe_pure ⟨⟨segment.1, field, checked⟩, segment.2, checksum⟩

theorem safe_parse (context : Context) (check : Nat → Except FormatError Unit) :
    HeaderStep.Safe (parse context check) fun header => header.Fits context check :=
  (safe_parse_fields context check).mono fun _ => And.left

/-- Where windows may not refer to the target so far, it is of no account how long that is but for the
check of the target length, which is that of a field of the format. -/
theorem parse_congr {context context' : Context} {check check' : Nat → Except FormatError Unit}
    (version : context.version = context'.version)
    (dictionarySize : context.dictionarySize = context'.dictionarySize)
    (disallowed : context.allowTarget = false) (disallowed' : context'.allowTarget = false)
    (checks : ∀ n ≤ Varint.maxInt32, check n = check' n) {s : HeaderState} (started : s.Started) :
    parse context check s = parse context' check' s := by
  have segments : HeaderStep.indicatorAndSegment context.dictionarySize context.decoded false =
      HeaderStep.indicatorAndSegment context.dictionarySize context'.decoded false := by
    simp only [HeaderStep.indicatorAndSegment, Bool.false_eq_true, if_false]
  simp only [parse, disallowed, disallowed', ← version, ← dictionarySize, ← segments]
  refine (HeaderStep.safe_indicatorAndSegment _ _ _).bind_congr (fun p _ s started => ?_) started
  refine HeaderStep.safe_windowLengths.bind_congr (fun n field s _ => ?_) started
  rw [checks n field]

end WindowHeader

end DeltaCoding
