import DeltaCoding.Decoder.Stream
import DeltaCoding.Proofs.Header.File
import DeltaCoding.Proofs.Window.Safety

/-!
# Decoding sessions safely

Between two calls a session keeps what its windows need to be safe: the decoder is ready for the
target so far (`WindowRun.Ready`), also while the delta of a code table is decoded, and a table is
put to use only after it has been validated. Every call then has an answer, whatever arrives.
-/

namespace DeltaCoding

theorem DecoderConfig.le_of_checkLength {config : DecoderConfig} {decoded targetLength : Nat}
    (h : config.checkLength decoded targetLength = .ok ()) :
    targetLength ≤ config.maxTargetWindow ∧ decoded + targetLength ≤ config.maxTargetFile ∧
      ∀ planned ∈ config.plannedTargetFile, decoded + targetLength ≤ planned := by
  simp only [checkLength] at h
  split at h
  · cases h
  · split at h
    · cases h
    · refine ⟨by omega, by omega, ?_⟩
      intro planned present
      rw [Option.mem_def] at present
      simp only [present] at h
      split at h
      · cases h
      · omega

namespace WindowRun

variable {dictionary : Array UInt8} {config : DecoderConfig}

/-- The windows can go on. -/
structure Ready (run : WindowRun) (dictionary : Array UInt8) (config : DecoderConfig) : Prop where
  ready : run.decoder.Ready ⟨dictionary, config, run.total⟩ run.target
  total : run.total ≤ config.maxTargetFile
  planned : ∀ planned ∈ config.plannedTargetFile, run.total ≤ planned

theorem ready_ofDecoder {decoder : WindowDecoder} (valid : decoder.Valid)
    (phase : decoder.phase = .header) : (ofDecoder decoder).Ready dictionary config := by
  refine ⟨⟨valid, fun _ => ?_, fun body entered => ?_⟩, Nat.zero_le _, fun _ _ => Nat.zero_le _⟩
  · simp [ofDecoder, WindowContext.historySize]
  · simp only [ofDecoder, phase] at entered
    cases entered

theorem ready_next {progress : WindowProgress} {total start stop : Nat}
    (sound : progress.Sound ⟨dictionary, config, total⟩)
    (complete : progress.outcome = .ok (.complete start stop)) :
    Ready ⟨progress.decoder, if config.allowTarget then progress.target else #[],
      total + (stop - start)⟩ dictionary config := by
  obtain ⟨valid, phase, startEq, stopEq, ordered, checked, -⟩ := sound.complete start stop complete
  obtain ⟨-, total, planned⟩ := DecoderConfig.le_of_checkLength checked
  refine ⟨⟨valid, fun _ => ?_, fun body entered => ?_⟩, total, planned⟩
  · simp only [WindowContext.historySize] at startEq ⊢
    -- The history goes on with this window if later ones may copy from it, and is empty otherwise.
    split
    · next allowed =>
      rw [if_pos allowed] at startEq
      omega
    · rfl
  · rw [phase] at entered
    cases entered

theorem size_write {sink sink' : Sink} {bytes : Array UInt8}
    (h : sink.write bytes = (true, sink')) :
    sink'.written.size = sink.written.size + bytes.size := by
  simp only [Sink.write] at h
  split at h
  · cases h
    exact Array.size_append
  · cases h

/-- The result is an answer. If it is not an error, the windows can go on, and what has been written
is what has been decoded. -/
def Sound (dictionary : Array UInt8) (config : DecoderConfig) (start : WindowRun) (c : Cursor)
    (sink : Sink) : Except DecodeError (WindowRun × Cursor) × Sink → Prop
  | (.error error, _) => error ≠ .breach
  | (.ok (run, c'), sink') => run.Ready dictionary config ∧ c.Reaches c' ∧
      sink'.written.size + start.total = sink.written.size + run.total

theorem sound_run {start : WindowRun} (ready : start.Ready dictionary config)
    (stopAt : Option Nat) (c : Cursor) (sink : Sink) :
    Sound dictionary config start c sink (run dictionary config stopAt c sink start) := by
  -- Along the windows. Each one is ready as the one before it was sound.
  fun_induction run dictionary config stopAt c sink start with
  | case1 c sink decoder target total stops => exact ⟨ready, .refl _, rfl⟩
  | case2 c sink decoder target total goes progress error failed =>
    have sound := WindowDecoder.sound_decode ready.ready c
    exact fun breach => sound.answers (breach ▸ failed)
  | case3 c sink decoder target total goes progress stalled =>
    have sound := WindowDecoder.sound_decode ready.ready c
    exact ⟨⟨sound.needMore stalled, ready.total, ready.planned⟩,
      WindowDecoder.reaches_decode _ _ _ _, rfl⟩
  | case4 c sink decoder target total goes progress start stop complete outside =>
    have sound := WindowDecoder.sound_decode ready.ready c
    exact absurd outside (sound.inside complete)
  | case5 =>
    intro h
    cases h
  | case6 c sink decoder target total goes progress start stop complete inside sink' written ih =>
    have sound := WindowDecoder.sound_decode ready.ready c
    have sizes := size_write written
    simp only [dite_eq_ite] at ih
    have next := ih (ready_next sound complete)
    generalize run dictionary config stopAt progress.cursor sink' _ = result at next
    obtain ⟨outcome, sink''⟩ := result
    cases outcome with
    | error error => exact next
    | ok p =>
      obtain ⟨readyAfter, reaches, count⟩ := next
      refine ⟨readyAfter, (WindowDecoder.reaches_decode _ _ _ _).trans reaches, ?_⟩
      rw [Array.size_extract] at sizes
      simp only at count ⊢
      omega

end WindowRun

/-! ## The delta of a code table -/

namespace TableStage

/-- The delta of a code table can go on. -/
def Ready : TableStage → Prop
  | header => True
  | windows run => run.Ready CodeTable.standardBytes config

/-- The result is an answer, and if it is not an error, the delta can go on. -/
def Sound (c : Cursor) : Except DecodeError (TableStage × Cursor) → Prop
  | .error error => error ≠ .breach
  | .ok (stage, c') => stage.Ready ∧ c.Reaches c'

theorem reaches_parseHeader {c c' : Cursor} {header : FileHeader}
    (h : parseHeader c = .ok (some (header, c'))) : c.Reaches c' := by
  simp only [parseHeader] at h
  split at h
  · next parsed =>
    cases h
    obtain ⟨bytes, takes, -⟩ := FileHeader.local_parse.ok parsed
    exact takes.reaches
  · cases h
  · cases h
  · cases h

theorem answers_parseHeader (c : Cursor) : parseHeader c ≠ .error .breach := by
  simp only [parseHeader]
  split
  · intro h
    cases h
  · intro h
    cases h
  · exact fun breach => DecodeError.locate_ne_breach _ _ (Except.error.inj breach)
  · next parsed => exact absurd parsed (FileHeader.answers_parse c)

theorem sound_runWindows {run : WindowRun} (ready : run.Ready CodeTable.standardBytes config)
    (c : Cursor) : Sound c (runWindows run c) := by
  have sound := WindowRun.sound_run ready (some CodeTable.storedSize) c {}
  simp only [runWindows]
  generalize run.run CodeTable.standardBytes config (some CodeTable.storedSize) c {} = result at *
  obtain ⟨outcome, sink⟩ := result
  cases outcome with
  | error error => exact sound
  | ok p => exact ⟨sound.1, sound.2.1⟩

theorem sound_run {stage : TableStage} (ready : stage.Ready) (c : Cursor) :
    Sound c (stage.run c) := by
  cases stage with
  | windows run => exact sound_runWindows ready c
  | header =>
    simp only [run]
    split
    · next failed =>
      exact fun breach => answers_parseHeader c (breach ▸ failed)
    · exact ⟨trivial, .refl _⟩
    · next fileHeader behind parsed =>
      split
      · exact DecodeError.locate_ne_breach _ _
      · have valid : (WindowDecoder.ofVersion fileHeader.version).Valid := CodeTable.valid_standard
        have sound := sound_runWindows (WindowRun.ready_ofDecoder valid rfl) behind
        generalize runWindows _ behind = result at sound
        cases result with
        | error error => exact sound
        | ok p => exact ⟨sound.1, (reaches_parseHeader parsed).trans sound.2⟩

end TableStage

/-! ## Whole deltas -/

namespace Session

/-- The number of target bytes in completed windows. -/
def decoded (session : Session) : Nat :=
  match session.stage with
  | .windows run => run.total
  | _ => 0

/-- The session can go on. -/
def Ready (session : Session) : Prop :=
  match session.stage with
  | .header => True
  | .table _ _ stage => stage.Ready
  | .windows run => run.Ready session.dictionary session.config

/-- The result is an answer. If it is not an error, the session can go on with the same settings,
and what has been written is what has been decoded. -/
def Sound (session : Session) (c : Cursor) (sink : Sink) :
    Except DecodeError (Session × Cursor) × Sink → Prop
  | (.error error, _) => error ≠ .breach
  | (.ok (next, c'), sink') => next.Ready ∧ next.config = session.config ∧ c.Reaches c' ∧
      sink'.written.size + session.decoded = sink.written.size + next.decoded

variable {session : Session} {sink : Sink} {c : Cursor}

/-- A table that is put to use is valid. -/
theorem valid_install {version : Version} {sizes : CacheSizes} {stored : Array UInt8}
    {decoder : WindowDecoder} (h : install version sizes stored = .ok decoder) :
    decoder.Valid ∧ decoder.phase = .header := by
  simp only [install, bind, Except.bind] at h
  split at h
  · cases h
  · split at h
    · cases h
    · next valid =>
      cases h
      exact ⟨CodeTable.valid_of_validate valid, rfl⟩

theorem sound_runWindows {run : WindowRun} (ready : run.Ready session.dictionary session.config)
    (fresh : run.total = session.decoded) :
    session.Sound c sink (session.runWindows run c sink) := by
  have sound := WindowRun.sound_run ready none c sink
  simp only [runWindows]
  generalize run.run session.dictionary session.config none c sink = result at *
  obtain ⟨outcome, sink'⟩ := result
  cases outcome with
  | error error => exact sound
  | ok p =>
    obtain ⟨readyAfter, reaches, count⟩ := sound
    exact ⟨readyAfter, rfl, reaches, fresh ▸ count⟩

theorem Sound.reached {c c' : Cursor} {result : Except DecodeError (Session × Cursor) × Sink}
    (h : session.Sound c' sink result) (reaches : c.Reaches c') : session.Sound c sink result := by
  obtain ⟨outcome, sink'⟩ := result
  cases outcome with
  | error error => exact h
  | ok p => exact ⟨h.1, h.2.1, reaches.trans h.2.2.1, h.2.2.2⟩

theorem sound_runTable {version : Version} {sizes : CacheSizes} {stage : TableStage}
    (ready : stage.Ready) (fresh : session.decoded = 0) :
    session.Sound c sink (session.runTable version sizes stage c sink) := by
  have sound := TableStage.sound_run ready c
  simp only [runTable]
  cases ran : stage.run c with
  | error error =>
    rw [ran] at sound
    exact sound
  | ok p =>
    obtain ⟨next, behind⟩ := p
    rw [ran] at sound
    obtain ⟨readyAfter, reaches⟩ := sound
    simp only
    split
    · exact ⟨readyAfter, rfl, reaches, by rw [fresh]; rfl⟩
    · split
      · exact DecodeError.locate_ne_breach _ _
      · next installed =>
        obtain ⟨valid, phase⟩ := valid_install installed
        exact (sound_runWindows (WindowRun.ready_ofDecoder valid phase) fresh.symm).reached reaches

theorem sound_afterHeader {header : FileHeader} {headerOffset : Nat} (fresh : session.decoded = 0) :
    session.Sound c sink (session.afterHeader header headerOffset c sink) := by
  simp only [afterHeader]
  split
  · have valid : (WindowDecoder.ofVersion header.version).Valid := CodeTable.valid_standard
    exact sound_runWindows (WindowRun.ready_ofDecoder valid rfl) fresh.symm
  · split
    · exact DecodeError.locate_ne_breach _ _
    · exact sound_runTable trivial fresh

theorem sound_run (ready : session.Ready) (c : Cursor) (sink : Sink) :
    session.Sound c sink (session.run c sink) := by
  obtain ⟨dictionary, config, stage⟩ := session
  cases stage with
  | windows run => exact @sound_runWindows ⟨dictionary, config, .windows run⟩ sink c run ready rfl
  | table version sizes stage =>
    exact @sound_runTable ⟨dictionary, config, .table version sizes stage⟩ sink c version sizes
      stage ready rfl
  | header =>
    simp only [run]
    split
    · next failed => exact fun breach => TableStage.answers_parseHeader c (breach ▸ failed)
    · exact ⟨trivial, rfl, .refl _, rfl⟩
    · next parsed => exact (sound_afterHeader rfl).reached (TableStage.reaches_parseHeader parsed)

end Session

/-! ## Streams -/

namespace StreamDecoder

/-- The number of target bytes in completed windows of the session in progress. -/
def decoded (d : StreamDecoder) : Nat :=
  (d.session.map Session.decoded).getD 0

/-- The session in progress can go on. -/
structure Ready (d : StreamDecoder) (config : DecoderConfig) : Prop where
  session : ∃ session, d.session = some session ∧ session.Ready ∧ session.config = config

theorem ready_start (dictionary : Array UInt8) (config : DecoderConfig) :
    ((idle config).start dictionary).2.Ready config :=
  ⟨_, rfl, trivial, rfl⟩

/-- A chunk has an answer. If it is not an error, the session can go on, all bytes have been counted,
and what has been written is what has been decoded. -/
theorem sound_decodeChunk {d : StreamDecoder} {config : DecoderConfig} (ready : d.Ready config)
    (piece : List UInt8) (sink : Sink) :
    match d.decodeChunk piece sink with
    | (.error error, _, _) => error ≠ .breach
    | (.ok (), next, sink') => next.Ready config ∧
        next.offset + next.pending.length = d.offset + d.pending.length + piece.length ∧
        sink'.written.size + d.decoded = sink.written.size + next.decoded := by
  obtain ⟨config', session, pending, offset⟩ := d
  obtain ⟨session, rfl, readySession, sameConfig⟩ := ready
  have sound := Session.sound_run readySession ⟨offset, pending ++ piece⟩ sink
  simp only [decodeChunk]
  generalize session.run ⟨offset, pending ++ piece⟩ sink = result at *
  obtain ⟨outcome, sink'⟩ := result
  cases outcome with
  | error error => exact sound
  | ok p =>
    obtain ⟨next, c⟩ := p
    obtain ⟨readyAfter, keptConfig, reaches, count⟩ := sound
    refine ⟨⟨next, rfl, readyAfter, keptConfig.trans sameConfig⟩, ?_, count⟩
    have ends := reaches.offset_add_length
    simp only [List.length_append] at ends ⊢
    omega

theorem answers_finish (d : StreamDecoder) : d.finish.1 ≠ .error .breach := by
  simp only [finish]
  split
  · intro h
    cases h
  · split
    · intro h
      cases h
    · intro h
      cases h

theorem decoded_le {d : StreamDecoder} {config : DecoderConfig} (ready : d.Ready config) :
    d.decoded ≤ config.maxTargetFile := by
  obtain ⟨session, some, readySession, sameConfig⟩ := ready
  simp only [decoded, some, Option.map_some, Option.getD_some]
  obtain ⟨dictionary, config', stage⟩ := session
  cases stage with
  | windows run => exact sameConfig ▸ readySession.total
  | table version sizes stage => exact Nat.zero_le _
  | header => exact Nat.zero_le _

theorem sound_feed {d : StreamDecoder} {config : DecoderConfig} (ready : d.Ready config)
    (sink : Sink) (pieces : List (List UInt8)) :
    match d.feed sink pieces with
    | (.error error, _) => error ≠ .breach
    | (.ok next, sink') => next.Ready config ∧
        next.offset + next.pending.length = d.offset + d.pending.length + pieces.flatten.length ∧
        sink'.written.size + d.decoded = sink.written.size + next.decoded := by
  -- By the pieces, each of which leaves the session ready for the next one.
  induction pieces generalizing d sink with
  | nil => exact ⟨ready, rfl, rfl⟩
  | cons piece rest ih =>
    have first := sound_decodeChunk ready piece sink
    simp only [feed]
    generalize d.decodeChunk piece sink = result at *
    obtain ⟨outcome, next, sink'⟩ := result
    cases outcome with
    | error error => exact first
    | ok u =>
      obtain ⟨readyNext, counted, written⟩ := first
      have others := ih readyNext sink'
      simp only
      generalize next.feed sink' rest = result at *
      obtain ⟨outcome, sink''⟩ := result
      cases outcome with
      | error error => exact others
      | ok last =>
        obtain ⟨readyLast, countedLast, writtenLast⟩ := others
        refine ⟨readyLast, ?_, by omega⟩
        rw [List.flatten_cons, List.length_append]
        omega

theorem answers_feed (dictionary : Array UInt8) (config : DecoderConfig) (sink : Sink)
    (pieces : List (List UInt8)) :
    match ((idle config).start dictionary).2.feed sink pieces with
    | (.error error, _) => error ≠ .breach
    | (.ok d, sink') => d.finish.1 ≠ .error .breach ∧
        d.offset + d.pending.length = pieces.flatten.length ∧
        sink'.written.size = sink.written.size + d.decoded ∧ d.decoded ≤ config.maxTargetFile := by
  have sound := sound_feed (ready_start dictionary config) sink pieces
  generalize ((idle config).start dictionary).2.feed sink pieces = result at *
  obtain ⟨outcome, sink'⟩ := result
  cases outcome with
  | error error => exact sound
  | ok d =>
    obtain ⟨ready, counted, written⟩ := sound
    have fresh : ((idle config).start dictionary).2.decoded = 0 := rfl
    have offset : ((idle config).start dictionary).2.offset = 0 := rfl
    have pending : ((idle config).start dictionary).2.pending = [] := rfl
    rw [fresh] at written
    rw [offset, pending] at counted
    refine ⟨answers_finish d, ?_, written, decoded_le ready⟩
    simpa using counted

end StreamDecoder

end DeltaCoding
