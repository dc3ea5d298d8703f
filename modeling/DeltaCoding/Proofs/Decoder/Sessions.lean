import DeltaCoding.Proofs.Decoder.Trace

/-!
# One session after another

A decoder answers requests in any order: to start a session, to take a piece of a delta, to finish,
to change a setting. `StreamDecoder.Serves` has a constructor for each thing that a request may do,
and `StreamDecoder.serves_perform` says that there are no others. Whatever has been asked of a
decoder, it is orderly then (`StreamDecoder.Orderly`): nothing is left of the sessions that are over,
and the session in progress has the decoder's settings.

That a misused request leaves everything as it was rests on what the errors of a delta are: none of
them says that a call does not fit (`DecodeError.OfStream`).
-/

namespace DeltaCoding

/-! ## Errors of a delta and of its sink -/

/-- The error is not about the call. -/
def DecodeError.OfStream (error : DecodeError) : Prop :=
  ∀ misuse, error ≠ .usage misuse

theorem DecodeError.ofStream_locate (offset : Nat) (error : FormatError) :
    (locate offset error).OfStream := by
  intro misuse h
  cases error <;> cases h

theorem DecodeError.ofStream_breach : breach.OfStream := by
  intro misuse h
  cases h

theorem DecodeError.ofStream_sinkFull : sinkFull.OfStream := by
  intro misuse h
  cases h

namespace WindowDecoder

variable {d : WindowDecoder} {context : WindowContext} {body : WindowBody} {c : Cursor}
  {target : Array UInt8} {error : DecodeError}

theorem ofStream_conclude {s : BodyState} {ending : BodyEnd}
    (h : (d.conclude body s ending c).outcome = .error error) : error.OfStream := by
  simp only [conclude] at h
  split at h
  · cases h
  · cases h
    exact DecodeError.ofStream_locate _ _
  · cases h
    exact DecodeError.ofStream_breach
  · split at h
    · cases h
      exact DecodeError.ofStream_locate _ _
    · cases h

theorem ofStream_resume (h : (d.resume context body c target).outcome = .error error) :
    error.OfStream := by
  simp only [resume] at h
  split at h
  · simp only [resumeStandard] at h
    split at h
    · cases h
      exact DecodeError.ofStream_breach
    · exact ofStream_conclude h
  · simp only [resumeInterleaved] at h
    split at h
    · exact ofStream_conclude h
    · cases h
      exact DecodeError.ofStream_breach

theorem ofStream_decode (h : (d.decode context c target).outcome = .error error) :
    error.OfStream := by
  simp only [decode] at h
  split at h
  · exact ofStream_resume h
  · split at h
    · cases h
    · cases h
      exact DecodeError.ofStream_breach
    · cases h
      exact DecodeError.ofStream_locate _ _
    · split at h
      · exact ofStream_resume h
      · cases h

end WindowDecoder

theorem WindowRun.ofStream_run {dictionary : Array UInt8} {config : DecoderConfig}
    {stopAt : Option Nat} {c : Cursor} {sink sink' : Sink} {start : WindowRun} {error : DecodeError}
    (h : run dictionary config stopAt c sink start = (.error error, sink')) : error.OfStream := by
  fun_induction run dictionary config stopAt c sink start with
  | case1 => cases h
  | case2 c sink decoder target total goes progress failure failed =>
    cases h
    exact WindowDecoder.ofStream_decode failed
  | case3 => cases h
  | case4 =>
    cases h
    exact DecodeError.ofStream_breach
  | case5 =>
    cases h
    exact DecodeError.ofStream_sinkFull
  | case6 c sink decoder target total goes progress start stop complete inside sink' written ih =>
    exact ih h

namespace TableStage

variable {stage : TableStage} {c : Cursor} {error : DecodeError}

theorem ofStream_parseHeader (h : parseHeader c = .error error) : error.OfStream := by
  simp only [parseHeader] at h
  split at h
  · cases h
  · cases h
  · cases h
    exact DecodeError.ofStream_locate _ _
  · cases h
    exact DecodeError.ofStream_breach

theorem ofStream_runWindows {run : WindowRun} (h : runWindows run c = .error error) :
    error.OfStream := by
  cases ran : run.run CodeTable.standardBytes config (some CodeTable.storedSize) c {} with
  | mk outcome sink =>
    simp only [runWindows, ran] at h
    split at h
    · cases h
    · cases h
      exact WindowRun.ofStream_run ran

theorem ofStream_run (h : stage.run c = .error error) : error.OfStream := by
  cases stage with
  | windows run => exact ofStream_runWindows h
  | header =>
    simp only [run] at h
    split at h
    · next failed =>
      cases h
      exact ofStream_parseHeader failed
    · cases h
    · split at h
      · cases h
        exact DecodeError.ofStream_locate _ _
      · exact ofStream_runWindows h

end TableStage

namespace Session

variable {session : Session} {c : Cursor} {sink sink' : Sink} {error : DecodeError}

theorem ofStream_runWindows {windows : WindowRun}
    (h : session.runWindows windows c sink = (.error error, sink')) : error.OfStream := by
  simp only [runWindows] at h
  split at h
  · cases h
  · next ran =>
    cases h
    exact WindowRun.ofStream_run ran

theorem ofStream_runTable {version : Version} {sizes : CacheSizes} {stage : TableStage}
    (h : session.runTable version sizes stage c sink = (.error error, sink')) :
    error.OfStream := by
  simp only [runTable] at h
  split at h
  · next failed =>
    cases h
    exact TableStage.ofStream_run failed
  · split at h
    · cases h
    · split at h
      · cases h
        exact DecodeError.ofStream_locate _ _
      · exact ofStream_runWindows h

theorem ofStream_run (h : session.run c sink = (.error error, sink')) : error.OfStream := by
  obtain ⟨dictionary, config, stage⟩ := session
  cases stage with
  | windows windows => exact ofStream_runWindows h
  | table version sizes stage => exact ofStream_runTable h
  | header =>
    simp only [run] at h
    split at h
    · next failed =>
      cases h
      exact TableStage.ofStream_parseHeader failed
    · cases h
    · simp only [afterHeader] at h
      split at h
      · exact ofStream_runWindows h
      · split at h
        · cases h
          exact DecodeError.ofStream_locate _ _
        · exact ofStream_runTable h

end Session

/-! ## Requests -/

/-- One of a decoder's settings, and what it is to be. -/
inductive DecoderSetting where
  | maxTargetWindow (size : Nat)
  | maxTargetFile (size : Nat)
  | allowTarget (allow : Bool)
  | plannedTargetFile (size : Option Nat)

def DecoderSetting.apply (config : DecoderConfig) : DecoderSetting → DecoderConfig
  | maxTargetWindow size => { config with maxTargetWindow := size }
  | maxTargetFile size => { config with maxTargetFile := size }
  | allowTarget allow => { config with allowTarget := allow }
  | plannedTargetFile size => { config with plannedTargetFile := size }

/-- What may be asked of a decoder. A piece comes with the sink that its windows are written to. -/
inductive DecoderRequest where
  | start (dictionary : Array UInt8)
  | chunk (piece : List UInt8) (sink : Sink)
  | finish
  | set (setting : DecoderSetting)

namespace DecoderRequest

def sink? : DecoderRequest → Option Sink
  | chunk _ sink => some sink
  | _ => none

/-- The request is made of a session in progress, and not of a decoder without one. -/
def needsSession : DecoderRequest → Bool
  | chunk _ _ => true
  | finish => true
  | start _ => false
  | set _ => false

end DecoderRequest

/-- What the caller sees of a request that has been answered. -/
structure DecoderAnswer where
  verdict : Except DecodeError Unit
  /-- What has become of the sink that was handed over. -/
  sink? : Option Sink
  decoding : Bool
  config : DecoderConfig

namespace StreamDecoder

def perform (d : StreamDecoder) :
    DecoderRequest → Except DecodeError Unit × StreamDecoder × Option Sink
  | .start dictionary =>
    let (verdict, d) := d.start dictionary
    (verdict, d, none)
  | .chunk piece sink =>
    let (verdict, d, sink) := d.decodeChunk piece sink
    (verdict, d, some sink)
  | .finish =>
    let (verdict, d) := d.finish
    (verdict, d, none)
  | .set setting =>
    let (verdict, d) := d.configure fun config => setting.apply config
    (verdict, d, none)

def answer (d : StreamDecoder) (request : DecoderRequest) : DecoderAnswer × StreamDecoder :=
  let (verdict, d, sink?) := d.perform request
  (⟨verdict, sink?, d.isDecoding, d.config⟩, d)

/-- The answers to one request after the other, whatever they are. -/
def answers (d : StreamDecoder) : List DecoderRequest → List DecoderAnswer × StreamDecoder
  | [] => ([], d)
  | request :: rest =>
    let (first, d) := d.answer request
    let (others, d) := d.answers rest
    (first :: others, d)

variable {config : DecoderConfig} {d d' : StreamDecoder} {request : DecoderRequest}
  {verdict : Except DecodeError Unit} {sink? : Option Sink}

/-- What a request does to a decoder: nothing if it does not fit, or one of five things. -/
inductive Serves (d : StreamDecoder) :
    DecoderRequest → Except DecodeError Unit → StreamDecoder → Option Sink → Prop where
  | refused {request : DecoderRequest} (misuse : DecoderMisuse)
      (unfit : d.isDecoding ≠ request.needsSession) :
      Serves d request (.error (.usage misuse)) d request.sink?
  | started {dictionary : Array UInt8} (free : d.session = none) :
      Serves d (.start dictionary) (.ok ()) ((idle d.config).start dictionary).2 none
  | taken {piece : List UInt8} {sink sink' : Sink} {session next : Session} {c : Cursor}
      (active : d.session = some session) (kept : next.config = session.config) :
      Serves d (.chunk piece sink) (.ok ()) ⟨d.config, some next, c.rest, c.offset⟩ (some sink')
  | failed {piece : List UInt8} {sink sink' : Sink} {error : DecodeError} (stream : error.OfStream) :
      Serves d (.chunk piece sink) (.error error) (idle d.config) (some sink')
  | finished {verdict : Except DecodeError Unit}
      (stream : ∀ error, verdict = .error error → error.OfStream) :
      Serves d .finish verdict (idle d.config) none
  | set {setting : DecoderSetting} (free : d.session = none) :
      Serves d (.set setting) (.ok ()) { d with config := setting.apply d.config } none

theorem serves_start (d : StreamDecoder) (dictionary : Array UInt8) :
    d.Serves (.start dictionary) (d.start dictionary).1 (d.start dictionary).2 none := by
  obtain ⟨config, session, pending, offset⟩ := d
  cases session with
  | none => exact .started rfl
  | some session => exact .refused .startedTwice Bool.noConfusion

theorem serves_decodeChunk (d : StreamDecoder) (piece : List UInt8) (sink : Sink) :
    d.Serves (.chunk piece sink) (d.decodeChunk piece sink).1 (d.decodeChunk piece sink).2.1
      (some (d.decodeChunk piece sink).2.2) := by
  obtain ⟨config, session, pending, offset⟩ := d
  cases session with
  | none => exact .refused .chunkBeforeStart Bool.noConfusion
  | some session =>
    simp only [decodeChunk]
    split
    · next ran =>
      obtain ⟨stage, rfl⟩ := Session.stage_run ran
      exact .taken rfl rfl
    · next failed => exact .failed (Session.ofStream_run failed)

theorem serves_finish (d : StreamDecoder) : d.Serves .finish d.finish.1 d.finish.2 none := by
  obtain ⟨config, session, pending, offset⟩ := d
  cases session with
  | none => exact .refused .finishBeforeStart Bool.noConfusion
  | some session =>
    simp only [finish]
    split
    · exact .finished (fun error h => by cases h)
    · refine .finished (fun error h => ?_)
      cases h
      exact DecodeError.ofStream_locate _ _

theorem serves_configure (d : StreamDecoder) (setting : DecoderSetting) :
    d.Serves (.set setting) (d.configure fun config => setting.apply config).1
      (d.configure fun config => setting.apply config).2 none := by
  obtain ⟨config, session, pending, offset⟩ := d
  cases session with
  | none => exact .set rfl
  | some session => exact .refused .settingsWhileDecoding Bool.noConfusion

theorem serves_perform (d : StreamDecoder) (request : DecoderRequest) :
    d.Serves request (d.perform request).1 (d.perform request).2.1 (d.perform request).2.2 := by
  cases request with
  | start dictionary => exact d.serves_start dictionary
  | chunk piece sink => exact d.serves_decodeChunk piece sink
  | finish => exact d.serves_finish
  | set setting => exact d.serves_configure setting

namespace Serves

theorem of_usage {misuse : DecoderMisuse}
    (h : d.Serves request (.error (.usage misuse)) d' sink?) : d' = d ∧ sink? = request.sink? := by
  cases h with
  | refused => exact ⟨rfl, rfl⟩
  | failed stream => exact absurd rfl (stream misuse)
  | finished stream => exact absurd rfl (stream _ rfl misuse)

theorem of_chunk {piece : List UInt8} {sink : Sink}
    (h : d.Serves (.chunk piece sink) verdict d' sink?) (failed : verdict ≠ .ok ()) :
    d'.isDecoding = false := by
  cases h with
  | refused misuse unfit => exact eq_false_of_ne_true unfit
  | taken => exact absurd rfl failed
  | failed => rfl

theorem of_finish (h : d.Serves .finish verdict d' sink?) : d'.isDecoding = false := by
  cases h with
  | refused misuse unfit => exact eq_false_of_ne_true unfit
  | finished => rfl

theorem config_eq (h : d.Serves request verdict d' sink?) (active : d.session ≠ none) :
    d'.config = d.config := by
  cases h with
  | set free => exact absurd free active
  | refused => rfl
  | started => rfl
  | taken => rfl
  | failed => rfl
  | finished => rfl

end Serves

/-! ## Order between requests -/

/-- Nothing is left of sessions that are over, and the one in progress has the decoder's settings. -/
structure Orderly (d : StreamDecoder) : Prop where
  cleared : d.session = none → d = idle d.config
  settings : ∀ session, d.session = some session → session.config = d.config

theorem orderly_idle (config : DecoderConfig) : (idle config).Orderly where
  cleared _ := rfl
  settings session h := by cases h

theorem Orderly.serves (orderly : d.Orderly) (h : d.Serves request verdict d' sink?) :
    d'.Orderly := by
  cases h with
  | refused => exact orderly
  | @started dictionary free =>
    refine ⟨(fun h => nomatch h), fun session h => ?_⟩
    cases h
    rfl
  | taken active kept =>
    refine ⟨(fun h => nomatch h), fun session h => ?_⟩
    cases h
    exact kept.trans (orderly.settings _ active)
  | failed => exact orderly_idle _
  | finished => exact orderly_idle _
  | set free =>
    rw [orderly.cleared free]
    exact orderly_idle _

theorem Orderly.answers (orderly : d.Orderly) (requests : List DecoderRequest) :
    (d.answers requests).2.Orderly := by
  induction requests generalizing d with
  | nil => exact orderly
  | cons request rest ih => exact ih (orderly.serves (d.serves_perform request))

/-- Sessions have nothing to do with each other, and a misused request does nothing. After any
requests, in any order and whatever has become of them: a request that does not fit changes nothing;
a piece that fails ends the session, and so does finishing it; the settings stay as they are while
there is a session, and are those that it was started with; and where there is none, a new one and
all that comes after it go as with a new decoder. -/
theorem answers_isolated (config : DecoderConfig) (history : List DecoderRequest) :
    let d := ((idle config).answers history).2
    (∀ request misuse, (d.answer request).1.verdict = .error (.usage misuse) →
      (d.answer request).2 = d ∧ (d.answer request).1.sink? = request.sink?) ∧
    (∀ piece sink, (d.answer (.chunk piece sink)).1.verdict ≠ .ok () →
      (d.answer (.chunk piece sink)).1.decoding = false) ∧
    (d.answer .finish).1.decoding = false ∧
    (d.isDecoding = true → ∀ request, (d.answer request).1.config = d.config) ∧
    (∀ session, d.session = some session → session.config = d.config) ∧
    (d.isDecoding = false → ∀ dictionary later,
      (d.answers (.start dictionary :: later)).1 =
        ((idle d.config).answers (.start dictionary :: later)).1) := by
  intro d
  have orderly : d.Orderly := (orderly_idle config).answers history
  have serves (request : DecoderRequest) := d.serves_perform request
  refine ⟨?_, ?_, ?_, ?_, orderly.settings, ?_⟩
  · intro request misuse refused
    have served := serves request
    rw [show (d.perform request).1 = .error (.usage misuse) from refused] at served
    exact served.of_usage
  · exact fun piece sink failed => (serves (.chunk piece sink)).of_chunk failed
  · exact (serves .finish).of_finish
  · intro active request
    refine (serves request).config_eq fun free => ?_
    rw [isDecoding, free] at active
    cases active
  · intro free dictionary later
    have none : d.session = none := by simpa [isDecoding] using free
    rw [← orderly.cleared none]

/-- A decoder that is fed before there is a session, is asked to change a setting and to start again
while there is one, and then is fed a third byte that no delta has, which ends the session. -/
theorem answers_isolated_aborted :
    let d := ((idle {}).answers [.chunk [0xD6] {}, .start #[1, 2], .set (.allowTarget false),
      .chunk [0xD6, 0xC3] {}, .start #[], .chunk [0x00] {}]).2
    d.isDecoding = false ∧
      (d.answer (.chunk [0x00] {})).1.verdict = .error (.usage .chunkBeforeStart) ∧
      (d.answer (.chunk [0x00] {})).2 = d ∧
      ∀ dictionary later, (d.answers (.start dictionary :: later)).1 =
        ((idle d.config).answers (.start dictionary :: later)).1 := by
  intro d
  have ended : d.isDecoding = false := by decide +kernel
  have refused : (d.answer (.chunk [0x00] {})).1.verdict = .error (.usage .chunkBeforeStart) := by
    decide +kernel
  obtain ⟨misused, -, -, -, -, fresh⟩ := answers_isolated {} [.chunk [0xD6] {}, .start #[1, 2],
    .set (.allowTarget false), .chunk [0xD6, 0xC3] {}, .start #[], .chunk [0x00] {}]
  exact ⟨ended, refused, (misused _ _ refused).1, fresh ended⟩

end StreamDecoder

end DeltaCoding
