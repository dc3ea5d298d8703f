import DeltaCoding.Proofs.Decoder.Trace
import DeltaCoding.Proofs.Window.Confinement

/-!
# Deltas that refer to no earlier target

A decoder keeps what earlier windows have made if windows may refer to it, and drops it otherwise.
Two decoders that differ in this hold different buffers, and a window starts at different places in
them. As long as no window header asks for a segment of the target so far, they do the same: each call
for a window of the one mirrors that of the other (`WindowRun.alongside_call`), and so do runs, sessions
and streams (`Alongside`).
-/

namespace DeltaCoding

/-- The same settings, but for whether windows may copy from the target of earlier windows. -/
def DecoderConfig.allowing (config : DecoderConfig) (allow : Bool) : DecoderConfig :=
  { config with allowTarget := allow }

/-- The next byte is the indicator of a window that asks for a segment of the target so far. -/
def Cursor.AsksTarget (c : Cursor) : Prop :=
  ∃ byte, c.rest.head? = some byte ∧ (WindowIndicator.ofByte byte).target = true

/-- The call reads the header of a window whose segment is to be one of the target so far. -/
def WindowCall.RefersToTarget (call : WindowCall) : Prop :=
  call.decoder.phase = .header ∧ call.cursor.AsksTarget

/-! ## Headers -/

namespace HeaderStep

variable {s : HeaderState}

theorem bind_congr_first {α β : Type} {step step' : HeaderStep α} {next : α → HeaderStep β}
    (same : step s = step' s) : (step >>= next) s = (step' >>= next) s := by
  rcases first : step s with ⟨_ | _, s'⟩
  · rw [bind_error first, bind_error (same ▸ first)]
  · rw [bind_ok first, bind_ok (same ▸ first)]

theorem indicatorAndSegment_allow (free : ¬ s.cursor.AsksTarget) (dictionarySize decoded : Nat)
    (allow allow' : Bool) : indicatorAndSegment dictionarySize decoded allow s =
      indicatorAndSegment dictionarySize decoded allow' s := by
  obtain ⟨⟨offset, rest⟩, deltaLength, deltaStart⟩ := s
  cases rest with
  | nil => rfl
  | cons byte rest =>
    have read : field Parser.byte ⟨⟨offset, byte :: rest⟩, deltaLength, deltaStart⟩ =
        (.ok byte, ⟨⟨offset + 1, rest⟩, deltaLength, deltaStart⟩) := rfl
    have unset : (WindowIndicator.ofByte byte).target = false :=
      eq_false_of_ne_true fun set => free ⟨byte, rfl, set⟩
    simp only [indicatorAndSegment]
    rw [bind_ok read, bind_ok read]
    simp only [unset]
    cases (WindowIndicator.ofByte byte).source <;> rfl

end HeaderStep

namespace WindowDecoder

variable {d : WindowDecoder} {config : DecoderConfig} {decoded : Nat} {c : Cursor}
  {dictionary : Array UInt8}

theorem readHeader_allow (free : ¬ c.AsksTarget) (d : WindowDecoder) (allow : Bool) :
    d.readHeader ⟨dictionary, config.allowing allow, decoded⟩ c =
      d.readHeader ⟨dictionary, config, decoded⟩ c := by
  simp only [readHeader, WindowHeader.parse, WindowContext.headerContext]
  exact HeaderStep.bind_congr_first (HeaderStep.indicatorAndSegment_allow free _ _ _ _)

theorem external_of_read (free : ¬ c.AsksTarget) {header : WindowHeader} {s : HeaderState}
    (read : d.readHeader ⟨dictionary, config, decoded⟩ c = (.ok header, s)) :
    header.segment.External := by
  rw [← readHeader_allow free d false] at read
  obtain ⟨-, -, yields⟩ := WindowHeader.safe_parse _ _ (.ofCursor c) _ _
    (HeaderState.started_ofCursor c) read
  have within := (yields header rfl).segment
  cases segment : header.segment with
  | none => trivial
  | dictionary position length => trivial
  | target position length =>
    rw [segment] at within
    cases within.1

end WindowDecoder

/-! ## Windows -/

namespace WindowProgress

variable {history history' : Array UInt8} {p q : WindowProgress}

theorem Mirrors.made (h : p.Mirrors history history' q) :
    q.target.extract history'.size q.target.size = p.target.extract history.size p.target.size ∧
      q.target.size - history'.size = p.target.size - history.size := by
  obtain ⟨out, target, target'⟩ := h.target
  simp [target, target']

end WindowProgress

/-- What has been decoded with `d` behind `history` may be gone on with behind `history'`: a window in
progress starts behind `history` and has no segment in it. -/
def WindowDecoder.KeepsOff (d : WindowDecoder) (history : Array UInt8) : Prop :=
  ∀ body, d.phase = .body body → body.segment.External ∧ history.size = body.windowStart

/-- The two calls come to the same, one behind `history` and one behind `history'`, and may be gone on
with there. -/
structure WindowProgress.Alongside (history history' : Array UInt8) (p q : WindowProgress) : Prop where
  mirrors : p.Mirrors history history' q
  decoder : q.decoder = p.decoder.startingAt history'.size
  stalled : p.outcome = .ok .needMoreData → p.decoder.KeepsOff history

namespace WindowDecoder

variable {d : WindowDecoder} {config : DecoderConfig} {allow : Bool} {decoded : Nat} {c : Cursor}
  {dictionary history history' out : Array UInt8}

theorem startingAt_header (phase : d.phase = .header) (n : Nat) : d.startingAt n = d := by
  obtain ⟨_, reader, cache, version⟩ := d
  obtain rfl := phase
  rfl

theorem inWindow_startingAt (d : WindowDecoder) (n : Nat) : (d.startingAt n).inWindow = d.inWindow := by
  obtain ⟨phase, reader, cache, version⟩ := d
  cases phase <;> rfl

theorem keepsOff_header (phase : d.phase = .header) (history : Array UInt8) :
    d.KeepsOff history := by
  intro body entered
  cases phase.symm.trans entered

theorem alongside_body {e d₁ : WindowDecoder} {c₁ : Cursor} {body : WindowBody}
    (external : body.segment.External) (starts : history.size = body.windowStart)
    (ready : d.Ready ⟨dictionary, config, decoded⟩ (history ++ out))
    (ready' : e.Ready ⟨dictionary, config.allowing allow, decoded⟩ (history' ++ out))
    (about : d.entered? ⟨dictionary, config, decoded⟩ c (history ++ out) = some (body, d₁, c₁))
    (about' : e.entered? ⟨dictionary, config.allowing allow, decoded⟩ c (history' ++ out) =
      some ({ body with windowStart := history'.size }, d₁.startingAt history'.size, c₁)) :
    (d.decode ⟨dictionary, config, decoded⟩ c (history ++ out)).Alongside history history'
      (e.decode ⟨dictionary, config.allowing allow, decoded⟩ c (history' ++ out)) := by
  obtain ⟨mirrored, decoder, continues⟩ :=
    mirrors_decode_entered external starts ready ready' about about'
  refine ⟨mirrored, decoder, fun stalled body' entered => ?_⟩
  obtain ⟨layout, phase⟩ := continues stalled
  cases phase.symm.trans entered
  exact ⟨external, starts⟩

/-- A call for a window that has not been entered comes to the same with either setting, unless its
indicator asks for the target so far. -/
theorem alongside_header (phase : d.phase = .header) (free : ¬ c.AsksTarget)
    (ready : d.Ready ⟨dictionary, config, decoded⟩ history)
    (ready' : d.Ready ⟨dictionary, config.allowing allow, decoded⟩ history') :
    (d.decode ⟨dictionary, config, decoded⟩ c history).Alongside history history'
      (d.decode ⟨dictionary, config.allowing allow, decoded⟩ c history') := by
  have same : d.SameStart d := ⟨⟨phase, phase⟩, rfl, rfl, rfl⟩
  have none : ∃ out, history = history ++ out ∧ history' = history' ++ out :=
    ⟨#[], Array.append_empty.symm, Array.append_empty.symm⟩
  have rests := startingAt_header phase history'.size
  have off := keepsOff_header phase history
  have read' := @readHeader_allow config decoded c dictionary free d allow
  rcases read : d.readHeader ⟨dictionary, config, decoded⟩ c with ⟨stop | header, s⟩
  · rw [read] at read'
    simp only [decode, phase, read, read']
    cases stop with
    | needMoreData => exact ⟨⟨.inr (.inl ⟨rfl, rfl⟩), rfl, none⟩, rests.symm, fun _ => off⟩
    | malformed error => exact ⟨⟨.inl ⟨_, rfl, rfl⟩, rfl, none⟩, rests.symm, fun _ => off⟩
    | breach => exact ⟨⟨.inl ⟨_, rfl, rfl⟩, rfl, none⟩, rests.symm, fun _ => off⟩
  · have external := external_of_read free read
    rw [read, ← c.extend_nil] at read'
    rw [← c.extend_nil] at read
    rcases waits_or_enters same read read' history history' with
      ⟨waits, waits'⟩ | ⟨body, d₁, c₁, about, about', segment, starts⟩
    · refine ⟨mirrors_waits waits waits', ?_, ?_⟩
      · rw [waits, waits']
        exact rests.symm
      · rw [waits]
        exact fun _ => off
    · rw [← segment] at external
      have entered := @alongside_body d config allow decoded c dictionary history history' #[] d d₁ c₁
        body external starts
      rw [Array.append_empty, Array.append_empty] at entered
      exact entered ready ready' about about'

end WindowDecoder

namespace WindowRun

variable {dictionary : Array UInt8} {config : DecoderConfig} {allow : Bool} {stopAt : Option Nat}
  {run run' : WindowRun} {c : Cursor} {sink : Sink}

/-- The runs are the same but for what they keep of earlier windows. -/
structure Alongside (run run' : WindowRun) : Prop where
  total : run'.total = run.total
  target : ∃ history history' out, run.target = history ++ out ∧ run'.target = history' ++ out ∧
    run'.decoder = run.decoder.startingAt history'.size ∧ run.decoder.KeepsOff history

theorem alongside_header (phase : run.decoder.phase = .header) (decoder : run'.decoder = run.decoder)
    (total : run'.total = run.total) : run.Alongside run' :=
  ⟨total, run.target, run'.target, #[], Array.append_empty.symm, Array.append_empty.symm,
    decoder.trans (WindowDecoder.startingAt_header phase _).symm,
    WindowDecoder.keepsOff_header phase _⟩

theorem alongside_call (beside : run.Alongside run') (ready : run.Ready dictionary config)
    (ready' : run'.Ready dictionary (config.allowing allow))
    (free : ¬ (run.nextCall dictionary config c sink).RefersToTarget) :
    ∃ history history',
      (run.decoder.decode ⟨dictionary, config, run.total⟩ c run.target).Alongside history history'
        (run'.decoder.decode ⟨dictionary, config.allowing allow, run'.total⟩ c run'.target) := by
  obtain ⟨decoder, target, total⟩ := run
  obtain ⟨decoder', target', total'⟩ := run'
  obtain ⟨same, history, history', out, kept, kept', moved, off⟩ := beside
  dsimp only at same kept kept' moved off
  subst same kept kept' moved
  have ready := ready.ready
  have ready' := ready'.ready
  cases phase : decoder.phase with
  | header =>
    rw [WindowDecoder.startingAt_header phase] at ready' ⊢
    exact ⟨_, _, WindowDecoder.alongside_header phase (fun asks => free ⟨phase, asks⟩) ready ready'⟩
  | body body =>
    obtain ⟨external, starts⟩ := off body phase
    refine ⟨history, history', @WindowDecoder.alongside_body _ _ _ _ _ _ _ _ _ _ decoder c body
      external starts ready ready' ?_ ?_⟩
    · simp only [WindowDecoder.entered?, phase]
    · simp only [WindowDecoder.entered?, WindowDecoder.startingAt, phase, WindowPhase.startingAt]

/-- Two results of runs that started alongside each other. -/
inductive ResultAlongside : Except DecodeError (WindowRun × Cursor) × Sink →
    Except DecodeError (WindowRun × Cursor) × Sink → Prop where
  | failed (error : DecodeError) (sink : Sink) : ResultAlongside (.error error, sink) (.error error, sink)
  | goes {run run' : WindowRun} (beside : run.Alongside run') (c : Cursor) (sink : Sink) :
      ResultAlongside (.ok (run, c), sink) (.ok (run', c), sink)

/-- Runs alongside each other stay so, if none of their windows refers to the target so far. -/
theorem alongside_run (beside : run.Alongside run') (ready : run.Ready dictionary config)
    (ready' : run'.Ready dictionary (config.allowing allow))
    (free : ∀ call, run.Calls dictionary config stopAt c sink call → ¬ call.RefersToTarget) :
    ResultAlongside (WindowRun.run dictionary config stopAt c sink run)
      (WindowRun.run dictionary (config.allowing allow) stopAt c sink run') := by
  -- By what there is to do. Each call comes to the same, and behind a complete window neither run
  -- depends on what it has kept.
  induction work : run.decoder.workBound c using Nat.strongRecOn generalizing run run' c sink with
  | ind work' ih =>
    subst work
    by_cases stops : stopAt = some run.total ∨ c.isEmpty = true
    · have stops' := stops
      rw [← beside.total] at stops'
      rw [run_stops stops, run_stops stops']
      exact .goes beside c sink
    · have goes' := stops
      rw [← beside.total] at goes'
      rw [run_goes run stops, run_goes run' goes']
      obtain ⟨history, history', mirrored, decoder, off⟩ :=
        alongside_call beside ready ready' (free _ (.next stops))
      have sound := WindowDecoder.sound_decode ready.ready c
      have sound' := WindowDecoder.sound_decode ready'.ready c
      have bound := @WindowDecoder.workBound_decode run.decoder ⟨dictionary, config, run.total⟩ c
        run.target
      have later := @Calls.later dictionary config stopAt run c sink
      simp only [nextCall, WindowCall.progress] at later
      generalize run.decoder.decode ⟨dictionary, config, run.total⟩ c run.target = p at *
      generalize run'.decoder.decode ⟨dictionary, config.allowing allow, run'.total⟩ c
        run'.target = q at *
      simp only [proceed]
      rcases mirrored.outcome with ⟨error, left, right⟩ | ⟨left, right⟩ | ⟨left, right⟩
      · simp only [left, right]
        exact .failed error sink
      · obtain ⟨out, target, target'⟩ := mirrored.target
        have waiting : Alongside ⟨p.decoder, p.target, run.total⟩ ⟨q.decoder, q.target, run'.total⟩ :=
          ⟨beside.total, history, history', out, target, target', decoder, off left⟩
        simp only [left, right, mirrored.cursor]
        exact .goes waiting _ _
      · obtain ⟨made, size⟩ := mirrored.made
        simp only [left, right, if_neg (sound.inside left), if_neg (sound'.inside right), made]
        rcases written : sink.write (p.target.extract history.size p.target.size) with ⟨_ | _, sink'⟩
        · exact .failed .sinkFull sink'
        · obtain ⟨-, phase, -⟩ := sound.complete _ _ left
          simp only [mirrored.cursor]
          refine ih _ (bound left) ?_ (ready_next sound left) (ready_next sound' right)
            (fun call calls => free call (later stops rfl left written calls)) rfl
          refine alongside_header phase (decoder.trans (WindowDecoder.startingAt_header phase _)) ?_
          simp only [beside.total, size]

end WindowRun

/-! ## Whole deltas -/

namespace Session

variable {allow : Bool} {session session' : Session} {dictionary : Array UInt8}
  {config : DecoderConfig} {c : Cursor} {sink : Sink}

/-- The sessions are the same but for the setting and for what their windows keep. -/
inductive Alongside (allow : Bool) : Session → Session → Prop where
  | header (dictionary : Array UInt8) (config : DecoderConfig) :
      Alongside allow ⟨dictionary, config, .header⟩ ⟨dictionary, config.allowing allow, .header⟩
  | table (dictionary : Array UInt8) (config : DecoderConfig) (version : Version)
      (sizes : CacheSizes) (stage : TableStage) :
      Alongside allow ⟨dictionary, config, .table version sizes stage⟩
        ⟨dictionary, config.allowing allow, .table version sizes stage⟩
  | windows (dictionary : Array UInt8) (config : DecoderConfig) {run run' : WindowRun}
      (beside : run.Alongside run') :
      Alongside allow ⟨dictionary, config, .windows run⟩
        ⟨dictionary, config.allowing allow, .windows run'⟩

/-- Two results of sessions that started alongside each other. -/
inductive ResultAlongside (allow : Bool) : Except DecodeError (Session × Cursor) × Sink →
    Except DecodeError (Session × Cursor) × Sink → Prop where
  | failed (error : DecodeError) (sink : Sink) :
      ResultAlongside allow (.error error, sink) (.error error, sink)
  | goes {session session' : Session} (beside : session.Alongside allow session') (c : Cursor)
      (sink : Sink) : ResultAlongside allow (.ok (session, c), sink) (.ok (session', c), sink)

theorem alongside_runWindows {stage stage' : SessionStage} {windows windows' : WindowRun}
    (beside : windows.Alongside windows') (ready : windows.Ready dictionary config)
    (ready' : windows'.Ready dictionary (config.allowing allow))
    (free : ∀ call, windows.Calls dictionary config none c sink call → ¬ call.RefersToTarget) :
    ResultAlongside allow (runWindows ⟨dictionary, config, stage⟩ windows c sink)
      (runWindows ⟨dictionary, config.allowing allow, stage'⟩ windows' c sink) := by
  have ran := WindowRun.alongside_run beside ready ready' free
  simp only [runWindows]
  generalize windows.run dictionary config none c sink = result at ran
  generalize windows'.run dictionary (config.allowing allow) none c sink = result' at ran
  cases ran with
  | failed error sink => exact .failed error sink
  | goes beside c sink => exact .goes (.windows _ _ beside) c sink

theorem alongside_ofDecoder {stage : SessionStage} {decoder : WindowDecoder}
    (valid : decoder.Valid) (phase : decoder.phase = .header)
    (free : ∀ call, (WindowRun.ofDecoder decoder).Calls dictionary config none c sink call →
      ¬ call.RefersToTarget) :
    ResultAlongside allow (runWindows ⟨dictionary, config, stage⟩ (.ofDecoder decoder) c sink)
      (runWindows ⟨dictionary, config.allowing allow, stage⟩ (.ofDecoder decoder) c sink) :=
  alongside_runWindows (WindowRun.alongside_header phase rfl rfl)
    (WindowRun.ready_ofDecoder valid phase) (WindowRun.ready_ofDecoder valid phase) free

theorem alongside_runTable {version : Version} {sizes : CacheSizes} {table : TableStage}
    (free : ∀ next behind stored decoder, table.run c = .ok (next, behind) →
      next.stored? = some stored → install version sizes stored = .ok decoder →
        ∀ call, (WindowRun.ofDecoder decoder).Calls dictionary config none behind sink call →
          ¬ call.RefersToTarget) :
    ResultAlongside allow (runTable ⟨dictionary, config, .header⟩ version sizes table c sink)
      (runTable ⟨dictionary, config.allowing allow, .header⟩ version sizes table c sink) := by
  simp only [runTable]
  cases ran : table.run c with
  | error error => exact .failed error sink
  | ok p =>
    obtain ⟨next, behind⟩ := p
    cases whole : next.stored? with
    | none =>
      simp only [whole]
      exact .goes (.table _ _ version sizes next) behind sink
    | some stored =>
      cases installed : install version sizes stored with
      | error fault =>
        simp only [whole, installed]
        exact .failed _ sink
      | ok decoder =>
        obtain ⟨valid, phase⟩ := valid_install installed
        simp only [whole, installed]
        exact alongside_ofDecoder valid phase (free _ _ _ _ ran whole installed)

theorem alongside_run (beside : session.Alongside allow session') (ready : session.Ready)
    (ready' : session'.Ready)
    (free : ∀ call, session.Calls c sink call → ¬ call.RefersToTarget) :
    ResultAlongside allow (session.run c sink) (session'.run c sink) := by
  have free (windows : WindowRun) (c' : Cursor) (resumes : session.Resumes c windows c')
      (call : WindowCall)
      (calls : windows.Calls session.dictionary session.config none c' sink call) :
      ¬ call.RefersToTarget :=
    free call ⟨windows, c', resumes, calls⟩
  cases beside with
  | windows dictionary config beside =>
    exact alongside_runWindows beside ready ready' (free _ _ (.windows rfl))
  | table dictionary config version sizes table =>
    exact alongside_runTable fun _ _ _ _ ran whole installed =>
      free _ _ (.table rfl ran whole installed)
  | header dictionary config =>
    simp only [run]
    cases header : TableStage.parseHeader c with
    | error error => exact .failed error sink
    | ok parsed =>
      rcases parsed with _ | ⟨⟨version, cacheSizes⟩, behind⟩
      · exact .goes (.header dictionary config) c sink
      · rcases cacheSizes with _ | ⟨near, same⟩
        · exact alongside_ofDecoder CodeTable.valid_standard rfl
            (free _ _ (.header rfl (.standard header)))
        · simp only [afterHeader]
          cases checked : CacheSizes.check near.toNat same.toNat with
          | error error => exact .failed _ sink
          | ok sizes =>
            exact alongside_runTable fun _ _ _ _ ran whole installed =>
              free _ _ (.header rfl (.table header checked ran whole installed))

theorem Alongside.isComplete (beside : session.Alongside allow session') :
    session'.isComplete = session.isComplete := by
  cases beside with
  | header => rfl
  | table => rfl
  | windows dictionary config beside =>
    obtain ⟨-, history, history', out, -, -, decoder, -⟩ := beside
    simp only [Session.isComplete, decoder, WindowDecoder.inWindow_startingAt]

end Session

/-! ## Streams -/

namespace StreamDecoder

variable {allow : Bool} {d d' : StreamDecoder} {config : DecoderConfig} {sink : Sink}
  {pieces : List (List UInt8)}

/-- The decoders are the same but for the setting and for what their sessions keep. -/
inductive Alongside (allow : Bool) : StreamDecoder → StreamDecoder → Prop where
  | decoding {session session' : Session} (beside : session.Alongside allow session')
      (config : DecoderConfig) (pending : List UInt8) (offset : Nat) :
      Alongside allow ⟨config, some session, pending, offset⟩
        ⟨config.allowing allow, some session', pending, offset⟩

theorem alongside_decodeChunk (beside : d.Alongside allow d') (ready : d.Ready config)
    (ready' : d'.Ready (config.allowing allow)) {piece : List UInt8}
    (free : ∀ session, d.session = some session → ∀ call,
      session.Calls ⟨d.offset, d.pending ++ piece⟩ sink call → ¬ call.RefersToTarget) :
    (∃ error e e' sink', d.decodeChunk piece sink = (.error error, e, sink') ∧
      d'.decodeChunk piece sink = (.error error, e', sink')) ∨
    ∃ e e' sink', d.decodeChunk piece sink = (.ok (), e, sink') ∧
      d'.decodeChunk piece sink = (.ok (), e', sink') ∧ e.Alongside allow e' := by
  cases beside with
  | @decoding session session' beside config pending offset =>
    obtain ⟨_, ⟨⟩, readySession, -⟩ := ready.session
    obtain ⟨_, ⟨⟩, readySession', -⟩ := ready'.session
    have ran := Session.alongside_run beside readySession readySession' (free session rfl)
    simp only [decodeChunk]
    generalize session.run ⟨offset, pending ++ piece⟩ sink = result at ran
    generalize session'.run ⟨offset, pending ++ piece⟩ sink = result' at ran
    cases ran with
    | failed error sink => exact .inl ⟨error, _, _, sink, rfl, rfl⟩
    | goes beside c sink => exact .inr ⟨_, _, sink, rfl, rfl, .decoding beside _ _ _⟩

theorem alongside_feed (beside : d.Alongside allow d') (ready : d.Ready config)
    (ready' : d'.Ready (config.allowing allow))
    (free : ∀ call, d.Calls sink pieces call → ¬ call.RefersToTarget) :
    (∃ error sink', d.feed sink pieces = (.error error, sink') ∧
      d'.feed sink pieces = (.error error, sink')) ∨
    ∃ e e' sink', d.feed sink pieces = (.ok e, sink') ∧ d'.feed sink pieces = (.ok e', sink') ∧
      e.Alongside allow e' := by
  induction pieces generalizing d d' sink with
  | nil => exact .inr ⟨d, d', sink, rfl, rfl, beside⟩
  | cons piece rest ih =>
    have sound := sound_decodeChunk ready piece sink
    have sound' := sound_decodeChunk ready' piece sink
    have chunk := @alongside_decodeChunk allow d d' config sink beside ready ready' piece
      fun session decoding call calls => free call ⟨session, _, sink, .next decoding, calls⟩
    rcases chunk with ⟨error, e, e', sink', first, first'⟩ | ⟨e, e', sink', first, first', beside⟩
    · simp only [feed, first, first']
      exact .inl ⟨error, sink', rfl, rfl⟩
    · rw [first] at sound
      rw [first'] at sound'
      simp only [feed, first, first']
      refine ih beside sound.1 sound'.1 ?_
      rintro call ⟨session, c, sink'', runs, calls⟩
      exact free call ⟨session, c, sink'', .later first runs, calls⟩

theorem Alongside.finish_eq (beside : d.Alongside allow d') : d'.finish.1 = d.finish.1 := by
  cases beside with
  | decoding beside =>
    simp only [finish, beside.isComplete]
    split <;> rfl

theorem Runs.append {session : Session} {c : Cursor} {sink' : Sink} (more : List (List UInt8))
    (h : d.Runs sink pieces session c sink') : d.Runs sink (pieces ++ more) session c sink' := by
  induction h with
  | next decoding => exact .next decoding
  | later first others ih => exact .later first ih

/-- Whether references to earlier targets are allowed makes a difference to no delta without such
references: with the other setting the same is written with every piece, and wherever the pieces end,
the verdict is the same, with its error and the place of that. -/
theorem decodeStream_allowing (dictionary : Array UInt8) (config : DecoderConfig) (sink : Sink)
    (pieces : List (List UInt8))
    (free : ∀ call, ((idle config).start dictionary).2.Calls sink pieces call →
      ¬ call.RefersToTarget) (allow : Bool) :
    decodeStream dictionary (config.allowing allow) sink pieces =
        decodeStream dictionary config sink pieces ∧
      ∀ n, decodeStream dictionary (config.allowing allow) sink (pieces.take n) =
        decodeStream dictionary config sink (pieces.take n) := by
  have same (n : Nat) : decodeStream dictionary (config.allowing allow) sink (pieces.take n) =
      decodeStream dictionary config sink (pieces.take n) := by
    have beside : ((idle config).start dictionary).2.Alongside allow
        ((idle (config.allowing allow)).start dictionary).2 :=
      .decoding (.header dictionary config) config [] 0
    have fed := @alongside_feed allow _ _ config sink (pieces.take n) beside
      (ready_start dictionary config) (ready_start dictionary (config.allowing allow)) ?_
    · simp only [decodeStream, decodePieces]
      rcases fed with ⟨error, sink', left, right⟩ | ⟨e, e', sink', left, right, beside⟩
      · rw [left, right]
      · rw [left, right]
        simp only [beside.finish_eq]
    · rintro call ⟨session, c, sink', runs, calls⟩
      have whole := runs.append (pieces.drop n)
      rw [List.take_append_drop] at whole
      exact free call ⟨session, c, sink', whole, calls⟩
  have whole := same pieces.length
  rw [List.take_length] at whole
  exact ⟨whole, same⟩

/-- Two windows that copy from their own target across the end of a segment of the dictionary. The
second one starts behind four bytes that one of the decoders keeps and the other one drops. -/
theorem decodeStream_allowing_straddling :
    let dictionary : Array UInt8 := #[0x61, 0x62, 0x63]
    let window : List UInt8 := [1, 2, 0, 7, 4, 0, 0, 1, 1, 20, 0]
    let delta := [0xD6, 0xC3, 0xC4, 0, 0] ++ (window ++ window)
    (∀ call, ((idle {}).start dictionary).2.Calls {} [delta] call → ¬ call.RefersToTarget) ∧
      decodeStream dictionary (DecoderConfig.allowing {} false) {} [delta] =
        decodeStream dictionary {} {} [delta] ∧
      (decodeStream dictionary {} {} [delta]).2.written =
        #[0x61, 0x62, 0x61, 0x62, 0x61, 0x62, 0x61, 0x62] := by
  intro dictionary window delta
  have header : TableStage.parseHeader ⟨0, delta⟩ =
      .ok (some (⟨.standard, none⟩, ⟨5, window ++ window⟩)) := by rfl
  have free (call : WindowCall) (calls : ((idle {}).start dictionary).2.Calls {} [delta] call) :
      ¬ call.RefersToTarget := by
    rintro ⟨-, byte, first, set⟩
    obtain ⟨session, c, sink, runs, windows, c', resumes, calls⟩ := calls
    cases runs with
    | later first others => cases others
    | next decoding =>
      obtain rfl := Option.some.inj decoding
      cases resumes with
      | windows stage => cases stage
      | table stage => cases stage
      | header stage opens =>
        cases opens with
        | table header' => cases header'.symm.trans header
        | standard header' =>
          cases header'.symm.trans header
          cases calls with
          | next goes =>
            cases first
            cases set
          | @later _ _ _ _ _ progress low high goes decoded complete written others =>
            have made : progress.outcome = .ok (.complete 0 4) ∧ progress.cursor.rest = window := by
              rw [← decoded]
              decide +kernel
            cases made.1.symm.trans complete
            cases others with
            | next goes' =>
              cases (congrArg List.head? made.2).symm.trans first
              cases set
            | later goes' decoded' complete' written' others' =>
              subst decoded'
              have goes := others'.goes
              dsimp only [WindowRun.nextCall, WindowRun.next, WindowCall.progress] at goes
              rw [← decoded] at goes
              exact goes (.inr (by decide +kernel))
  exact ⟨free, (decodeStream_allowing dictionary {} {} [delta] free false).1, by decide +kernel⟩

end StreamDecoder

end DeltaCoding
