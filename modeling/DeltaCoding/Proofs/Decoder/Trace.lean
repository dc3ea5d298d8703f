import DeltaCoding.Proofs.Decoder.Opening
import DeltaCoding.Proofs.Window.Completion

/-!
# The calls of a session

`WindowRun.Calls`, `TableStage.Calls` and `StreamDecoder.Calls` say which calls of the window decoder
a run of windows, the delta of a code table and a whole session make, and in what state. A session
goes on from each of its calls as from its start, so that what a call fails with is what the session
ends with (`StreamDecoder.feed_calls`), and the decoder is ready at each of them
(`StreamDecoder.sound_calls`).
-/

namespace DeltaCoding

/-- A call of the window decoder. -/
structure WindowCall where
  decoder : WindowDecoder
  context : WindowContext
  cursor : Cursor
  target : Array UInt8
  /-- What has been written when the call is made. -/
  sink : Sink

namespace WindowCall

def progress (call : WindowCall) : WindowProgress :=
  call.decoder.decode call.context call.cursor call.target

end WindowCall

namespace WindowRun

variable {dictionary : Array UInt8} {config : DecoderConfig} {stopAt : Option Nat}
  {start : WindowRun} {c : Cursor} {sink : Sink} {call : WindowCall}

/-- The call that is made next. -/
def nextCall (dictionary : Array UInt8) (config : DecoderConfig) (start : WindowRun) (c : Cursor)
    (sink : Sink) : WindowCall :=
  ⟨start.decoder, ⟨dictionary, config, start.total⟩, c, start.target, sink⟩

/-- The calls of a run: the next one, and behind a complete window those of the run that goes on. -/
inductive Calls (dictionary : Array UInt8) (config : DecoderConfig) (stopAt : Option Nat) :
    WindowRun → Cursor → Sink → WindowCall → Prop where
  | next {start : WindowRun} {c : Cursor} {sink : Sink}
      (goes : ¬ (stopAt = some start.total ∨ c.isEmpty = true)) :
      Calls dictionary config stopAt start c sink (start.nextCall dictionary config c sink)
  | later {start : WindowRun} {c : Cursor} {sink sink' : Sink} {call : WindowCall}
      {progress : WindowProgress} {low high : Nat}
      (goes : ¬ (stopAt = some start.total ∨ c.isEmpty = true))
      (decoded : (start.nextCall dictionary config c sink).progress = progress)
      (complete : progress.outcome = .ok (.complete low high))
      (written : sink.write (progress.target.extract low high) = (true, sink'))
      (others : Calls dictionary config stopAt (start.next config progress low high) progress.cursor
        sink' call) :
      Calls dictionary config stopAt start c sink call

theorem Calls.goes (h : Calls dictionary config stopAt start c sink call) :
    ¬ (stopAt = some start.total ∨ c.isEmpty = true) := by
  cases h with
  | next goes => exact goes
  | later goes => exact goes

theorem run_calls (ready : start.Ready dictionary config)
    (h : Calls dictionary config stopAt start c sink call) :
    run dictionary config stopAt c sink start =
      proceed dictionary config stopAt call.sink call.context.decoded call.progress := by
  induction h with
  | next goes => exact run_goes _ goes
  | @later start c sink sink' call progress low high goes decoded complete written others ih =>
    have sound := WindowDecoder.sound_decode ready.ready c
    subst decoded
    have inside : ¬ ((start.nextCall dictionary config c sink).progress.target.size < high ∨
        high < low) := sound.inside complete
    rw [run_goes _ goes, ← ih (ready_next sound complete)]
    change proceed dictionary config stopAt sink start.total
      (start.nextCall dictionary config c sink).progress = _
    simp only [proceed, complete, if_neg inside, written]
    rfl

/-- At each of its calls a run is ready, and what it has written is what it has decoded. -/
theorem sound_calls (ready : start.Ready dictionary config)
    (h : Calls dictionary config stopAt start c sink call) :
    call.decoder.Ready call.context call.target ∧ call.context.dictionary = dictionary ∧
      call.context.config = config ∧
      call.sink.written.size + start.total = sink.written.size + call.context.decoded := by
  induction h with
  | next goes => exact ⟨ready.ready, rfl, rfl, rfl⟩
  | @later start c sink sink' call progress low high goes decoded complete written others ih =>
    subst decoded
    have sound := WindowDecoder.sound_decode ready.ready c
    have sizes := size_write written
    obtain ⟨-, -, -, stopEq, ordered, -⟩ := sound.complete low high complete
    obtain ⟨readyCall, sameDictionary, sameConfig, count⟩ := ih (ready_next sound complete)
    refine ⟨readyCall, sameDictionary, sameConfig, ?_⟩
    rw [Array.size_extract] at sizes
    simp only [nextCall, WindowCall.progress, next] at stopEq sizes count ⊢
    omega

end WindowRun

/-! ## The delta of a code table -/

namespace TableStage

variable {stage : TableStage} {c : Cursor} {call : WindowCall}

/-- The calls that the delta of a code table takes. -/
inductive Calls : TableStage → Cursor → WindowCall → Prop where
  | windows {run : WindowRun} {c : Cursor} {call : WindowCall}
      (calls : run.Calls CodeTable.standardBytes config (some CodeTable.storedSize) c {} call) :
      Calls (.windows run) c call
  | header {version : Version} {c behind : Cursor} {call : WindowCall}
      (header : parseHeader c = .ok (some (⟨version, none⟩, behind)))
      (calls : (WindowRun.ofDecoder (.ofVersion version)).Calls CodeTable.standardBytes config
        (some CodeTable.storedSize) behind {} call) : Calls .header c call

theorem Calls.windows_of (ready : stage.Ready) (h : stage.Calls c call) :
    ∃ run c', run.Ready CodeTable.standardBytes config ∧ stage.run c = runWindows run c' ∧
      run.Calls CodeTable.standardBytes config (some CodeTable.storedSize) c' {} call := by
  cases h with
  | windows calls => exact ⟨_, _, ready, rfl, calls⟩
  | @header version _ behind _ header calls =>
    have valid : (WindowDecoder.ofVersion version).Valid := CodeTable.valid_standard
    refine ⟨_, _, WindowRun.ready_ofDecoder valid rfl, ?_, calls⟩
    simp only [run, header]
    rfl

theorem run_calls (ready : stage.Ready) (h : stage.Calls c call) {error : DecodeError}
    (failed : call.progress.outcome = .error error) : stage.run c = .error error := by
  obtain ⟨run, c', readyRun, ran, calls⟩ := h.windows_of ready
  rw [ran, runWindows, WindowRun.run_calls readyRun calls]
  simp only [WindowRun.proceed, failed]

theorem sound_calls (ready : stage.Ready) (h : stage.Calls c call) :
    call.decoder.Ready call.context call.target ∧ call.context.config = config := by
  obtain ⟨run, c', readyRun, -, calls⟩ := h.windows_of ready
  obtain ⟨readyCall, -, sameConfig, -⟩ := WindowRun.sound_calls readyRun calls
  exact ⟨readyCall, sameConfig⟩

end TableStage

/-! ## Whole deltas -/

namespace Session

variable {session : Session} {c c' : Cursor} {sink : Sink} {windows : WindowRun} {call : WindowCall}

/-- A call of the session comes to its windows: they are in progress, or what comes in front of them
ends at `c'`. -/
inductive Resumes (session : Session) (c : Cursor) : WindowRun → Cursor → Prop where
  | windows {run : WindowRun} (stage : session.stage = .windows run) : Resumes session c run c
  | header {decoder : WindowDecoder} {c' : Cursor} (stage : session.stage = .header)
      (opens : Opens c decoder c') : Resumes session c (.ofDecoder decoder) c'
  | table {version : Version} {sizes : CacheSizes} {table next : TableStage} {c' : Cursor}
      {stored : Array UInt8} {decoder : WindowDecoder}
      (stage : session.stage = .table version sizes table) (ran : table.run c = .ok (next, c'))
      (whole : next.stored? = some stored) (installed : install version sizes stored = .ok decoder) :
      Resumes session c (.ofDecoder decoder) c'

/-- A call of the session comes to the delta of its code table. -/
inductive ResumesTable (session : Session) (c : Cursor) :
    Version → CacheSizes → TableStage → Cursor → Prop where
  | table {version : Version} {sizes : CacheSizes} {table : TableStage}
      (stage : session.stage = .table version sizes table) :
      ResumesTable session c version sizes table c
  | header {version : Version} {near same : UInt8} {sizes : CacheSizes} {behind : Cursor}
      (stage : session.stage = .header)
      (header : TableStage.parseHeader c = .ok (some (⟨version, some (near, same)⟩, behind)))
      (checked : CacheSizes.check near.toNat same.toNat = .ok sizes) :
      ResumesTable session c version sizes .header behind

theorem Resumes.run (h : session.Resumes c windows c') (sink : Sink) :
    session.run c sink = session.runWindows windows c' sink := by
  obtain ⟨dictionary, config, stage⟩ := session
  cases h with
  | windows stage =>
    obtain rfl := stage
    rfl
  | header stage opens =>
    obtain rfl := stage
    exact opens.run dictionary config sink
  | table stage ran whole installed =>
    obtain rfl := stage
    simp only [Session.run, runTable, ran, whole, installed]
    rfl

theorem Resumes.ready (ready : session.Ready) (h : session.Resumes c windows c') :
    windows.Ready session.dictionary session.config ∧ windows.total = session.decoded := by
  obtain ⟨dictionary, config, stage⟩ := session
  cases h with
  | windows stage =>
    obtain rfl := stage
    exact ⟨ready, rfl⟩
  | header stage opens =>
    obtain rfl := stage
    exact ⟨opens.between.ready, rfl⟩
  | table stage ran whole installed =>
    obtain rfl := stage
    obtain ⟨valid, phase⟩ := valid_install installed
    exact ⟨WindowRun.ready_ofDecoder valid phase, rfl⟩

section Table

variable {version : Version} {sizes : CacheSizes} {stage next : TableStage}

theorem ResumesTable.run (h : session.ResumesTable c version sizes stage c') (sink : Sink) :
    session.run c sink = session.runTable version sizes stage c' sink := by
  obtain ⟨dictionary, config, _⟩ := session
  cases h with
  | table stage =>
    obtain rfl := stage
    rfl
  | header stage header checked =>
    obtain rfl := stage
    simp only [Session.run, header, afterHeader, checked]

theorem ResumesTable.run_error (h : session.ResumesTable c version sizes stage c')
    {error : DecodeError} (failed : stage.run c' = .error error) (sink : Sink) :
    session.run c sink = (.error error, sink) := by
  simp only [h.run, runTable, failed]

theorem ResumesTable.ready (ready : session.Ready)
    (h : session.ResumesTable c version sizes stage c') : stage.Ready := by
  obtain ⟨dictionary, config, _⟩ := session
  cases h with
  | table stage =>
    obtain rfl := stage
    exact ready
  | header stage header checked => exact trivial

theorem ResumesTable.resumes (h : session.ResumesTable c version sizes stage c')
    {behind : Cursor} {stored : Array UInt8} {decoder : WindowDecoder}
    (ran : stage.run c' = .ok (next, behind)) (whole : next.stored? = some stored)
    (installed : install version sizes stored = .ok decoder) :
    session.Resumes c (.ofDecoder decoder) behind := by
  cases h with
  | table stage => exact .table stage ran whole installed
  | header stage header checked => exact .header stage (.table header checked ran whole installed)

theorem ResumesTable.run_cases (h : session.ResumesTable c version sizes stage c') (sink : Sink) :
    (∃ error, session.run c sink = (.error error, sink)) ∨
      (∃ next behind, stage.run c' = .ok (next, behind) ∧ next.stored? = none ∧
        session.run c sink =
          (.ok ({ session with stage := .table version sizes next }, behind), sink)) ∨
      ∃ windows behind, session.Resumes c windows behind := by
  have same := h.run sink
  cases ran : stage.run c' with
  | error error => exact .inl ⟨error, h.run_error ran sink⟩
  | ok p =>
    obtain ⟨next, behind⟩ := p
    cases whole : next.stored? with
    | none =>
      simp only [runTable, ran, whole] at same
      exact .inr (.inl ⟨next, behind, rfl, whole, same⟩)
    | some stored =>
      cases installed : install version sizes stored with
      | error fault =>
        simp only [runTable, ran, whole, installed] at same
        exact .inl ⟨_, same⟩
      | ok decoder => exact .inr (.inr ⟨_, behind, h.resumes ran whole installed⟩)

end Table

theorem run_cases (session : Session) (c : Cursor) (sink : Sink) :
    (∃ windows c', session.Resumes c windows c') ∨
      (∃ version sizes stage c', session.ResumesTable c version sizes stage c') ∨
      (∃ error, session.run c sink = (.error error, sink)) ∨
      session.run c sink = (.ok (session, c), sink) := by
  obtain ⟨dictionary, config, stage⟩ := session
  cases stage with
  | windows windows => exact .inl ⟨windows, c, .windows rfl⟩
  | table version sizes table => exact .inr (.inl ⟨version, sizes, table, c, .table rfl⟩)
  | header =>
    cases parsed : TableStage.parseHeader c with
    | error error => exact .inr (.inr (.inl ⟨error, by simp only [Session.run, parsed]⟩))
    | ok header =>
      cases header with
      | none => exact .inr (.inr (.inr (by simp only [Session.run, parsed])))
      | some p =>
        obtain ⟨⟨version, cacheSizes⟩, behind⟩ := p
        cases cacheSizes with
        | none => exact .inl ⟨_, _, .header rfl (.standard parsed)⟩
        | some sizes =>
          obtain ⟨near, same⟩ := sizes
          cases checked : CacheSizes.check near.toNat same.toNat with
          | error error =>
            exact .inr (.inr (.inl ⟨.locate c.offset error,
              by simp only [Session.run, parsed, afterHeader, checked]⟩))
          | ok sizes => exact .inr (.inl ⟨version, sizes, _, behind, .header rfl parsed checked⟩)

theorem resumes_or_rests (session : Session) (c : Cursor) (sink : Sink) :
    (∃ windows c', session.Resumes c windows c') ∨ (session.run c sink).2 = sink := by
  rcases session.run_cases c sink with
    resumes | ⟨version, sizes, stage, c', resumes⟩ | ⟨error, failed⟩ | waits
  · exact .inl resumes
  · rcases resumes.run_cases sink with ⟨error, failed⟩ | ⟨next, behind, -, -, waits⟩ | windows
    · exact .inr (congrArg Prod.snd failed)
    · exact .inr (congrArg Prod.snd waits)
    · exact .inl windows
  · exact .inr (congrArg Prod.snd failed)
  · exact .inr (congrArg Prod.snd waits)

/-- The calls for the windows of the delta. -/
def Calls (session : Session) (c : Cursor) (sink : Sink) (call : WindowCall) : Prop :=
  ∃ run c', session.Resumes c run c' ∧
    run.Calls session.dictionary session.config none c' sink call

/-- The calls for the windows of the code table's delta. None of them writes to the sink. -/
def CallsTable (session : Session) (c : Cursor) (sink : Sink) (call : WindowCall) : Prop :=
  ∃ version sizes stage c' inner, session.ResumesTable c version sizes stage c' ∧
    stage.Calls c' inner ∧ call = { inner with sink := sink }

theorem run_calls (ready : session.Ready) (h : session.Calls c sink call) {error : DecodeError}
    (failed : call.progress.outcome = .error error) :
    session.run c sink = (.error error, call.sink) := by
  obtain ⟨run, c', resumes, calls⟩ := h
  rw [resumes.run, runWindows, WindowRun.run_calls (resumes.ready ready).1 calls]
  simp only [WindowRun.proceed, failed]

theorem run_callsTable (ready : session.Ready) (h : session.CallsTable c sink call)
    {error : DecodeError} (failed : call.progress.outcome = .error error) :
    session.run c sink = (.error error, call.sink) := by
  obtain ⟨version, sizes, stage, c', inner, resumes, calls, rfl⟩ := h
  exact resumes.run_error (TableStage.run_calls (resumes.ready ready) calls failed) sink

theorem stage_runWindows {next : Session} {sink' : Sink}
    (h : session.runWindows windows c sink = (.ok (next, c'), sink')) :
    ∃ stage, next = { session with stage := stage } := by
  simp only [runWindows] at h
  split at h <;> cases h
  exact ⟨_, rfl⟩

theorem stage_runTable {version : Version} {sizes : CacheSizes} {stage : TableStage}
    {next : Session} {sink' : Sink}
    (h : session.runTable version sizes stage c sink = (.ok (next, c'), sink')) :
    ∃ stage, next = { session with stage := stage } := by
  simp only [runTable] at h
  split at h
  · cases h
  · split at h
    · cases h
      exact ⟨_, rfl⟩
    · split at h
      · cases h
      · exact stage_runWindows h

theorem stage_run {next : Session} {sink' : Sink}
    (h : session.run c sink = (.ok (next, c'), sink')) :
    ∃ stage, next = { session with stage := stage } := by
  obtain ⟨dictionary, config, stage⟩ := session
  cases stage with
  | windows windows => exact stage_runWindows h
  | table version sizes stage => exact stage_runTable h
  | header =>
    simp only [Session.run] at h
    split at h
    · cases h
    · cases h
      exact ⟨_, rfl⟩
    · simp only [afterHeader] at h
      split at h
      · exact stage_runWindows h
      · split at h
        · cases h
        · exact stage_runTable h

end Session

/-! ## Streams -/

namespace StreamDecoder

variable {d : StreamDecoder} {config : DecoderConfig} {sink sink' : Sink}
  {pieces : List (List UInt8)} {session : Session} {c : Cursor} {call : WindowCall}

/-- With one of the pieces the session is run, from the bytes that have not been consumed yet. -/
inductive Runs : StreamDecoder → Sink → List (List UInt8) → Session → Cursor → Sink → Prop where
  | next {d : StreamDecoder} {sink : Sink} {piece : List UInt8} {rest : List (List UInt8)}
      {session : Session} (decoding : d.session = some session) :
      Runs d sink (piece :: rest) session ⟨d.offset, d.pending ++ piece⟩ sink
  | later {d d' : StreamDecoder} {sink sink' sink'' : Sink} {piece : List UInt8}
      {rest : List (List UInt8)} {session : Session} {c : Cursor}
      (first : d.decodeChunk piece sink = (.ok (), d', sink'))
      (others : Runs d' sink' rest session c sink'') :
      Runs d sink (piece :: rest) session c sink''

/-- The calls for the windows of the delta. -/
def Calls (d : StreamDecoder) (sink : Sink) (pieces : List (List UInt8)) (call : WindowCall) : Prop :=
  ∃ session c sink', d.Runs sink pieces session c sink' ∧ session.Calls c sink' call

/-- The calls for the windows of its code table's delta. -/
def CallsTable (d : StreamDecoder) (sink : Sink) (pieces : List (List UInt8)) (call : WindowCall) :
    Prop :=
  ∃ session c sink', d.Runs sink pieces session c sink' ∧ session.CallsTable c sink' call

theorem feed_runs (h : d.Runs sink pieces session c sink') {error : DecodeError} {sink'' : Sink}
    (failed : session.run c sink' = (.error error, sink'')) :
    d.feed sink pieces = (.error error, sink'') := by
  induction h with
  | @next d sink piece rest session decoding =>
    obtain ⟨config, _, pending, offset⟩ := d
    obtain rfl := decoding
    simp only [feed, decodeChunk, failed]
  | later first others ih =>
    simp only [feed, first]
    exact ih failed

theorem dictionary_decodeChunk {d' : StreamDecoder} {piece : List UInt8}
    (h : d.decodeChunk piece sink = (.ok (), d', sink')) :
    d'.session.map (·.dictionary) = d.session.map (·.dictionary) := by
  obtain ⟨config, session, pending, offset⟩ := d
  cases session with
  | none => cases h
  | some session =>
    simp only [decodeChunk] at h
    split at h
    · next ran =>
      cases h
      obtain ⟨stage, rfl⟩ := Session.stage_run ran
      rfl
    · cases h

theorem sound_runs (ready : d.Ready config) (h : d.Runs sink pieces session c sink') :
    session.Ready ∧ session.config = config ∧ some session.dictionary = d.session.map (·.dictionary) ∧
      sink'.written.size + d.decoded = sink.written.size + session.decoded := by
  induction h with
  | @next d sink piece rest session decoding =>
    obtain ⟨config', _, pending, offset⟩ := d
    obtain rfl := decoding
    obtain ⟨session, ⟨⟩, readySession, sameConfig⟩ := ready
    exact ⟨readySession, sameConfig, rfl, rfl⟩
  | @later d d' sink sink' sink'' piece rest session c first others ih =>
    have sound := sound_decodeChunk ready piece sink
    rw [first] at sound
    obtain ⟨readyNext, -, written⟩ := sound
    obtain ⟨readySession, sameConfig, sameDictionary, count⟩ := ih readyNext
    exact ⟨readySession, sameConfig, sameDictionary.trans (dictionary_decodeChunk first), by omega⟩

theorem feed_calls (ready : d.Ready config)
    (h : d.Calls sink pieces call ∨ d.CallsTable sink pieces call) {error : DecodeError}
    (failed : call.progress.outcome = .error error) :
    d.feed sink pieces = (.error error, call.sink) := by
  rcases h with ⟨session, c, sink', runs, calls⟩ | ⟨session, c, sink', runs, calls⟩
  · exact feed_runs runs (Session.run_calls (sound_runs ready runs).1 calls failed)
  · exact feed_runs runs (Session.run_callsTable (sound_runs ready runs).1 calls failed)

theorem sound_calls (ready : d.Ready config) (h : d.Calls sink pieces call) :
    call.decoder.Ready call.context call.target ∧
      some call.context.dictionary = d.session.map (·.dictionary) ∧ call.context.config = config ∧
      call.sink.written.size + d.decoded = sink.written.size + call.context.decoded := by
  obtain ⟨session, c, sink', runs, windows, c', resumes, calls⟩ := h
  obtain ⟨readySession, sameConfig, sameDictionary, count⟩ := sound_runs ready runs
  obtain ⟨readyRun, total⟩ := resumes.ready readySession
  obtain ⟨readyCall, callDictionary, callConfig, written⟩ := WindowRun.sound_calls readyRun calls
  refine ⟨readyCall, ?_, callConfig.trans sameConfig, by omega⟩
  rw [callDictionary, sameDictionary]

theorem sound_callsTable (ready : d.Ready config) (h : d.CallsTable sink pieces call) :
    call.decoder.Ready call.context call.target ∧ call.context.config = TableStage.config := by
  obtain ⟨session, c, sink', runs, version, sizes, stage, c', inner, resumes, calls, rfl⟩ := h
  have sound := TableStage.sound_calls (resumes.ready (sound_runs ready runs).1) calls
  exact sound

end StreamDecoder

end DeltaCoding
