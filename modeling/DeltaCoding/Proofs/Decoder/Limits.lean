import DeltaCoding.Proofs.Decoder.Trace
import Mathlib.Logic.Relation

/-!
# Limits

A window's declared length is checked before its body is entered, so a window that goes beyond a
limit is refused with nothing produced (`WindowDecoder.decode_refuses`). A body makes no more than
its declared length, instruction by instruction, so the buffer holds no more than what has been
decoded and the window in progress declares, and no more is written than the limits allow
(`StreamDecoder.feed_limits`).
-/

namespace DeltaCoding

theorem DecoderConfig.limit_of_checkLength {config : DecoderConfig} {decoded targetLength : Nat}
    {error : FormatError} (h : config.checkLength decoded targetLength = .error error) :
    ∃ limit size max, error = .limitExceeded limit size max ∧ max < size := by
  simp only [checkLength] at h
  split at h
  · next beyond =>
    cases h
    exact ⟨_, _, _, rfl, beyond⟩
  · split at h
    · next beyond =>
      cases h
      exact ⟨_, _, _, rfl, beyond⟩
    · split at h
      · split at h
        · next beyond =>
          cases h
          exact ⟨_, _, _, rfl, beyond⟩
        · cases h
      · cases h

namespace WindowHeader

/-- Reads a header up to the length that it declares for the target. -/
def declared (context : Context) : HeaderStep Nat := do
  let _ ← HeaderStep.indicatorAndSegment context.dictionarySize context.decoded context.allowTarget
  HeaderStep.windowLengths

theorem parse_refuses {context : Context} {check : Nat → Except FormatError Unit}
    {s s' : HeaderState} {n : Nat} {error : FormatError} (read : declared context s = (.ok n, s'))
    (refused : check n = .error error) :
    parse context check s = (.error (.malformed error), s') := by
  simp only [declared] at read
  rcases segment : HeaderStep.indicatorAndSegment context.dictionarySize context.decoded
    context.allowTarget s with ⟨outcome, s₁⟩
  cases outcome with
  | error stop =>
    rw [HeaderStep.bind_error segment] at read
    cases read
  | ok p =>
    rw [HeaderStep.bind_ok segment] at read
    rw [parse, HeaderStep.bind_ok segment]
    dsimp only
    rw [HeaderStep.bind_ok read, refused]
    exact HeaderStep.bind_error rfl

end WindowHeader

namespace BodyState

variable {s s' : BodyState} {context : BodyContext}

/-- The body comes from `s` to `s'`, one instruction after the other. -/
def Passes (context : BodyContext) : BodyState → BodyState → Prop :=
  Relation.ReflTransGen fun s s' => s.step context = .next s'

theorem safe_passes (safe : s.Safe context) (h : Passes context s s') : s'.Safe context := by
  induction h with
  | refl => exact safe
  | tail before stepped ih =>
    have next := safe_step ih
    rw [stepped] at next
    exact next

end BodyState

namespace WindowDecoder

variable {d e : WindowDecoder} {context : WindowContext} {body : WindowBody} {c c' : Cursor}
  {target : Array UInt8}

/-- The length that the window in progress declares. -/
def declaredLength (d : WindowDecoder) : Nat :=
  match d.phase with
  | .header => 0
  | .body body => body.targetLength

theorem target_conclude (d : WindowDecoder) (body : WindowBody) (s : BodyState) (ending : BodyEnd)
    (c : Cursor) : (d.conclude body s ending c).target = s.target := by
  simp only [conclude]
  split
  · rfl
  · rfl
  · rfl
  · split <;> rfl

theorem historySize_le (context : WindowContext) : context.historySize ≤ context.decoded := by
  simp only [WindowContext.historySize]
  split <;> omega

theorem size_ready (ready : d.Ready context target) :
    target.size ≤ context.decoded + d.declaredLength := by
  have history := historySize_le context
  simp only [declaredLength]
  cases phase : d.phase with
  | header =>
    have size := ready.header phase
    simp only
    omega
  | body body =>
    obtain ⟨sound, -⟩ := ready.body body phase
    have room := sound.room
    have starts := sound.windowStart
    simp only
    omega

theorem size_passes (valid : e.Valid) (sound : body.Sound context target) {sections : Sections}
    {moreAvailable : Bool} {s : BodyState}
    (h : BodyState.Passes (context.bodyContext body moreAvailable) (e.bodyState sections target) s) :
    s.target.size ≤ context.decoded + body.targetLength := by
  have room := (BodyState.safe_passes (safe_bodyState valid sound sections moreAvailable) h).room
  have starts := sound.windowStart
  have history := historySize_le context
  simp only [WindowContext.bodyContext] at room
  omega

theorem size_resume (valid : e.Valid) (sound : body.Sound context target) (c : Cursor) :
    (e.resume context body c target).target.size ≤ context.decoded + body.targetLength := by
  have starts := sound.windowStart
  have history := historySize_le context
  have ran (sections : Sections) (moreAvailable : Bool) := (BodyState.safe_run
    (safe_bodyState valid sound sections moreAvailable)).1.room
  simp only [WindowContext.bodyContext] at ran
  simp only [resume]
  split
  · simp only [resumeStandard]
    split
    · have room := sound.room
      simp only
      omega
    · next sections behind _ =>
      have room := ran sections false
      rw [target_conclude]
      simp only [WindowContext.bodyContext]
      omega
  · next remaining _ =>
    have room := ran (.interleaved (c.window remaining)) (!c.has remaining)
    rw [resumeInterleaved_eq, target_conclude]
    simp only [runInterleaved, WindowContext.bodyContext]
    omega

/-- A window that declares too much is refused, and none of its instructions is carried out. -/
theorem decode_refuses (phase : d.phase = .header) {n : Nat} {s : HeaderState} {error : FormatError}
    (read : WindowHeader.declared (context.headerContext d.version) (.ofCursor c) = (.ok n, s))
    (refused : context.config.checkLength context.decoded n = .error error) :
    d.entered? context c target = none ∧ d.decode context c target =
      ⟨.error (.locate s.cursor.offset error), d, c, target⟩ := by
  have header : d.readHeader context c = (.error (.malformed error), s) :=
    WindowHeader.parse_refuses read refused
  simp only [entered?, decode, phase, header, and_self]

end WindowDecoder

/-- The length goes beyond a limit. -/
def DecoderConfig.Exceeded (config : DecoderConfig) (decoded targetLength : Nat) : Prop :=
  config.maxTargetWindow < targetLength ∨ config.maxTargetFile < decoded + targetLength ∨
    ∃ planned ∈ config.plannedTargetFile, planned < decoded + targetLength

theorem DecoderConfig.refused_of_exceeded {config : DecoderConfig} {decoded targetLength : Nat}
    (h : config.Exceeded decoded targetLength) : ∃ limit size max, max < size ∧
      config.checkLength decoded targetLength = .error (.limitExceeded limit size max) := by
  cases checked : config.checkLength decoded targetLength with
  | ok u =>
    obtain ⟨window, file, planned⟩ := le_of_checkLength checked
    rcases h with beyond | beyond | ⟨size, present, beyond⟩
    · omega
    · omega
    · have := planned size present
      omega
  | error error =>
    obtain ⟨limit, size, max, rfl, beyond⟩ := limit_of_checkLength checked
    exact ⟨limit, size, max, beyond, rfl⟩

/-- The limits hold at a call of a session that ends as `fed`. -/
structure WindowCall.Limited (call : WindowCall) (fed : Except DecodeError StreamDecoder × Sink) :
    Prop where
  /-- A window that is complete is within every limit, and with it the target so far. -/
  complete : ∀ start stop, call.progress.outcome = .ok (.complete start stop) →
    stop = call.progress.target.size ∧ stop - start ≤ call.context.config.maxTargetWindow ∧
      call.context.decoded + (stop - start) ≤ call.context.config.maxTargetFile ∧
      ∀ planned ∈ call.context.config.plannedTargetFile,
        call.context.decoded + (stop - start) ≤ planned
  /-- The buffer in front of the call. -/
  before : call.target.size ≤ call.context.decoded + call.decoder.declaredLength
  /-- The buffer behind each instruction, if the call is about a body, and behind the call. -/
  during : match call.decoder.entered? call.context call.cursor call.target with
    | none => call.progress.target = call.target
    | some (body, e, c) =>
      (∀ sections moreAvailable s, WindowDecoder.sectionsAt? body.layout c = some sections →
        BodyState.Passes (call.context.bodyContext body moreAvailable)
          (e.bodyState sections call.target) s →
            s.target.size ≤ call.context.decoded + body.targetLength) ∧
      call.progress.target.size ≤ call.context.decoded + body.targetLength
  /-- A window that declares too much is about no body. It ends the session, to which nothing has
  been added. -/
  refused : ∀ n s, call.decoder.phase = .header →
    WindowHeader.declared (call.context.headerContext call.decoder.version) (.ofCursor call.cursor) =
      (.ok n, s) → call.context.config.Exceeded call.context.decoded n →
        ∃ limit size max, max < size ∧
          call.decoder.entered? call.context call.cursor call.target = none ∧
          call.progress = ⟨.error (.limitExceeded s.cursor.offset limit size max), call.decoder,
            call.cursor, call.target⟩ ∧
          fed = (.error (.limitExceeded s.cursor.offset limit size max), call.sink)

theorem WindowCall.limited_of_ready {call : WindowCall}
    {fed : Except DecodeError StreamDecoder × Sink}
    (ready : call.decoder.Ready call.context call.target)
    (ends : ∀ error, call.progress.outcome = .error error → fed = (.error error, call.sink)) :
    call.Limited fed := by
  have sound := WindowDecoder.sound_decode ready call.cursor
  refine ⟨?_, WindowDecoder.size_ready ready, ?_, ?_⟩
  · intro start stop complete
    obtain ⟨-, -, -, stopEq, -, checked, -⟩ := sound.complete start stop complete
    exact ⟨stopEq, DecoderConfig.le_of_checkLength checked⟩
  · cases about : call.decoder.entered? call.context call.cursor call.target with
    | none =>
      obtain ⟨outcome, decoded, -⟩ := WindowDecoder.decode_not_entered about
      exact congrArg WindowProgress.target decoded
    | some p =>
      obtain ⟨body, e, c⟩ := p
      obtain ⟨valid, within, -⟩ := WindowDecoder.sound_entered ready about
      refine ⟨fun sections moreAvailable s _ passes =>
        WindowDecoder.size_passes valid within passes, ?_⟩
      rw [progress, WindowDecoder.decode_entered about]
      exact WindowDecoder.size_resume valid within c
  · intro n s phase read exceeded
    obtain ⟨limit, size, max, beyond, checked⟩ := DecoderConfig.refused_of_exceeded exceeded
    obtain ⟨about, decoded⟩ :=
      @WindowDecoder.decode_refuses _ call.context call.cursor call.target phase n s _ read checked
    exact ⟨limit, size, max, beyond, about, decoded, ends _ (congrArg WindowProgress.outcome decoded)⟩

/-! ## What is written -/

section Written

variable {config : DecoderConfig} {bound : Nat}

/-- No window of the settings goes beyond the bound. -/
def DecoderConfig.Bounds (config : DecoderConfig) (bound : Nat) : Prop :=
  ∀ {decoded targetLength}, config.checkLength decoded targetLength = .ok () →
    decoded + targetLength ≤ bound

theorem WindowRun.written_run {dictionary : Array UInt8} {stopAt : Option Nat} {c : Cursor}
    {sink : Sink} {start : WindowRun} (ready : start.Ready dictionary config)
    (bounds : config.Bounds bound) (within : start.total ≤ bound) :
    ∃ w : Array UInt8, (run dictionary config stopAt c sink start).2.written = sink.written ++ w ∧
      start.total + w.size ≤ bound := by
  have nothing (sink : Sink) : sink.written = sink.written ++ #[] := Array.append_empty.symm
  -- Along the windows. Each one has passed the check.
  fun_induction run dictionary config stopAt c sink start with
  | case1 => exact ⟨#[], nothing _, within⟩
  | case2 => exact ⟨#[], nothing _, within⟩
  | case3 => exact ⟨#[], nothing _, within⟩
  | case4 => exact ⟨#[], nothing _, within⟩
  | case5 c sink decoder target total goes progress start stop complete inside sink' full =>
    simp only [Sink.write] at full
    split at full
    · cases full
    · cases full
      exact ⟨#[], nothing _, within⟩
  | case6 c sink decoder target total goes progress start stop complete inside sink' written ih =>
    have sound := WindowDecoder.sound_decode ready.ready c
    obtain ⟨-, -, -, stopEq, ordered, checked, -⟩ := sound.complete start stop complete
    simp only [dite_eq_ite] at ih
    obtain ⟨w, later, room⟩ := ih (ready_next sound complete) (bounds checked)
    refine ⟨progress.target.extract start stop ++ w, ?_, ?_⟩
    · rw [later]
      simp only [Sink.write] at written
      split at written
      · cases written
        exact Array.append_assoc
      · cases written
    · simp only [Array.size_append, Array.size_extract] at room ⊢
      omega

theorem Session.written_run {session : Session} (ready : session.Ready) (c : Cursor) (sink : Sink)
    (bounds : session.config.Bounds bound) (within : session.decoded ≤ bound) :
    ∃ w : Array UInt8, (session.run c sink).2.written = sink.written ++ w ∧
      session.decoded + w.size ≤ bound := by
  rcases session.resumes_or_rests c sink with ⟨windows, c', resumes⟩ | rests
  · obtain ⟨readyRun, total⟩ := resumes.ready ready
    rw [← total] at within ⊢
    obtain ⟨w, written, room⟩ := @WindowRun.written_run _ _ _ none c' sink windows readyRun bounds
      within
    refine ⟨w, ?_, room⟩
    rw [resumes.run, runWindows, ← written]
    generalize windows.run _ _ _ c' sink = result
    obtain ⟨_ | _, _⟩ := result <;> rfl
  · rw [rests]
    exact ⟨#[], Array.append_empty.symm, within⟩

theorem StreamDecoder.written_feed {d : StreamDecoder} (ready : d.Ready config) (sink : Sink)
    (pieces : List (List UInt8)) (bounds : config.Bounds bound) (within : d.decoded ≤ bound) :
    ∃ w : Array UInt8, (d.feed sink pieces).2.written = sink.written ++ w ∧
      d.decoded + w.size ≤ bound := by
  induction pieces generalizing d sink with
  | nil => exact ⟨#[], Array.append_empty.symm, within⟩
  | cons piece rest ih =>
    have sound := sound_decodeChunk ready piece sink
    obtain ⟨config', session, pending, offset⟩ := d
    obtain ⟨session, rfl, readySession, rfl⟩ := ready
    obtain ⟨w, written, room⟩ :=
      Session.written_run readySession ⟨offset, pending ++ piece⟩ sink bounds within
    simp only [feed, decodeChunk] at sound ⊢
    generalize session.run ⟨offset, pending ++ piece⟩ sink = result at sound written ⊢
    obtain ⟨error | ⟨next, c⟩, sink'⟩ := result
    · exact ⟨w, written, room⟩
    · obtain ⟨readyNext, -, counted⟩ := sound
      simp only at written
      rw [written, Array.size_append] at counted
      obtain ⟨w', written', room'⟩ := ih readyNext sink' (by
        simp only [decoded, Option.map_some, Option.getD_some] at counted room ⊢
        omega)
      refine ⟨w ++ w', by rw [written', written, Array.append_assoc], ?_⟩
      rw [Array.size_append]
      simp only [decoded, Option.map_some, Option.getD_some] at counted room' ⊢
      omega

end Written

namespace StreamDecoder

/-- The limits hold whatever the dictionary, the settings, the bytes and the pieces that they come
in. No more is written than the settings allow; no call makes a window that is too large, or keeps
more than has been decoded and the window in progress declares; and a window that declares too much is
refused in front of its first instruction. So it is with the delta of a code table, which has settings
of its own. -/
theorem feed_limits (dictionary : Array UInt8) (config : DecoderConfig) (sink : Sink)
    (pieces : List (List UInt8)) :
    let d := ((idle config).start dictionary).2
    (∃ w : Array UInt8, (d.feed sink pieces).2.written = sink.written ++ w ∧
      w.size ≤ config.maxTargetFile ∧ ∀ planned ∈ config.plannedTargetFile, w.size ≤ planned) ∧
    (∀ call, d.Calls sink pieces call →
      call.context.dictionary = dictionary ∧ call.context.config = config ∧
        call.sink.written.size = sink.written.size + call.context.decoded ∧
        call.Limited (d.feed sink pieces)) ∧
    ∀ call, d.CallsTable sink pieces call →
      call.context.config = TableStage.config ∧ call.Limited (d.feed sink pieces) := by
  have ready := ready_start dictionary config
  have fresh : ((idle config).start dictionary).2.decoded = 0 := rfl
  refine ⟨?_, fun call calls => ?_, fun call calls => ?_⟩
  · obtain ⟨w, written, room⟩ := @written_feed config config.maxTargetFile _ ready sink pieces
      (fun checked => (DecoderConfig.le_of_checkLength checked).2.1) (by rw [fresh]; omega)
    refine ⟨w, written, by omega, fun planned present => ?_⟩
    obtain ⟨w', written', room'⟩ := @written_feed config planned _ ready sink pieces
      (fun checked => (DecoderConfig.le_of_checkLength checked).2.2 planned present)
      (by rw [fresh]; omega)
    have sizes := congrArg Array.size (written.symm.trans written')
    simp only [Array.size_append] at sizes
    omega
  · obtain ⟨readyCall, sameDictionary, sameConfig, count⟩ := sound_calls ready calls
    refine ⟨Option.some.inj sameDictionary, sameConfig, by omega, ?_⟩
    exact WindowCall.limited_of_ready readyCall fun error => feed_calls ready (.inl calls)
  · obtain ⟨readyCall, sameConfig⟩ := sound_callsTable ready calls
    exact ⟨sameConfig, WindowCall.limited_of_ready readyCall fun error => feed_calls ready (.inr calls)⟩

/-- A window that declares five bytes where four are allowed, and the delta of a code table that
declares one byte more than a table has. -/
theorem feed_limits_oversized :
    let config : DecoderConfig := { maxTargetWindow := 4 }
    let window : List UInt8 := [0xD6, 0xC3, 0xC4, 0, 0, 0, 0x0B, 5, 0, 5, 1, 0,
      0x61, 0x62, 0x63, 0x64, 0x65, 6]
    let table : List UInt8 := [0xD6, 0xC3, 0xC4, 0, 2, 4, 3, 0xD6, 0xC3, 0xC4, 0, 0,
      0, 0x0A, 0x8C, 1, 0, 1, 4, 0, 0x61, 0, 0x8C, 1]
    let d := ((idle config).start #[0x61]).2
    (∃ call, d.Calls {} [window] call ∧ call.Limited (d.feed {} [window]) ∧
      call.context.config.Exceeded call.context.decoded 5) ∧
    (decodeStream #[0x61] config {} [window]).1 = .error (.limitExceeded 8 .targetWindow 5 4) ∧
    (∃ call, d.CallsTable {} [table] call ∧ call.Limited (d.feed {} [table]) ∧
      call.context.config.Exceeded call.context.decoded 1537) ∧
    (decodeStream #[0x61] config {} [table]).1 =
      .error (.limitExceeded 16 .plannedTargetFile 1537 1536) := by
  intro config window table d
  have outer : d.Calls {} [window] ((WindowRun.ofDecoder (.ofVersion .standard)).nextCall #[0x61]
      config ⟨5, window.drop 5⟩ {}) :=
    ⟨_, _, _, .next rfl, _, _, .header rfl (.standard (by rfl)), .next (by decide)⟩
  have inner : d.CallsTable {} [table] ((WindowRun.ofDecoder (.ofVersion .standard)).nextCall
      CodeTable.standardBytes TableStage.config ⟨12, table.drop 12⟩ {}) :=
    ⟨_, _, _, .next rfl, _, _, _, _, _, .header rfl (by rfl) (by rfl),
      .header (by rfl) (.next (by decide)), rfl⟩
  obtain ⟨-, -, -, limited⟩ := (feed_limits #[0x61] config {} [window]).2.1 _ outer
  obtain ⟨-, limitedTable⟩ := (feed_limits #[0x61] config {} [table]).2.2 _ inner
  exact ⟨⟨_, outer, limited, .inl (by decide)⟩, by decide +kernel,
    ⟨_, inner, limitedTable, .inr (.inr ⟨_, rfl, by decide⟩)⟩, by decide +kernel⟩

end StreamDecoder

end DeltaCoding
