import DeltaCoding.Proofs.Decoder.Trace
import DeltaCoding.Proofs.Window.Confinement

namespace DeltaCoding

/-- The source segment of the body that the call is about. -/
def WindowCall.segment? (call : WindowCall) : Option SourceSegment :=
  (call.decoder.entered? call.context call.cursor call.target).map fun about => about.1.segment

variable {dictionary dictionary' : Array UInt8} {config : DecoderConfig} {c : Cursor} {sink : Sink}

namespace WindowRun

variable {stopAt : Option Nat}

/-- A run comes to the same against dictionaries that agree on the segments that its calls are about.
-/
theorem run_dictionary {start : WindowRun} (size : dictionary.size = dictionary'.size)
    (ready : start.Ready dictionary config)
    (agrees : ∀ call segment, start.Calls dictionary config stopAt c sink call →
      call.segment? = some segment → segment.AgreesOn dictionary dictionary') :
    run dictionary' config stopAt c sink start = run dictionary config stopAt c sink start := by
  -- By what there is to do. Each window comes to the same, and so do those behind it.
  induction work : start.decoder.workBound c using Nat.strongRecOn generalizing start c sink with
  | ind work' ih =>
    subst work
    by_cases stops : stopAt = some start.total ∨ c.isEmpty = true
    · rw [run_stops stops, run_stops stops]
    · rw [run_goes start stops, run_goes start stops]
      have same : start.decoder.decode ⟨dictionary', config, start.total⟩ c start.target =
          start.decoder.decode ⟨dictionary, config, start.total⟩ c start.target := by
        refine WindowDecoder.decode_dictionary size ready.ready fun body e c' about => ?_
        refine agrees _ _ (.next stops) ?_
        simp only [WindowCall.segment?, nextCall, about, Option.map_some]
      have sound := WindowDecoder.sound_decode ready.ready c
      have bound := @WindowDecoder.workBound_decode start.decoder ⟨dictionary, config, start.total⟩ c
        start.target
      have later := @Calls.later dictionary config stopAt start c sink
      rw [same]
      simp only [nextCall, WindowCall.progress] at later
      generalize start.decoder.decode ⟨dictionary, config, start.total⟩ c start.target = progress at *
      simp only [proceed]
      split
      · rfl
      · rfl
      · next low high complete =>
        split
        · rfl
        · rcases written : sink.write (progress.target.extract low high) with ⟨_ | _, sink'⟩
          · rfl
          · exact ih _ (bound complete) (ready_next sound complete) (fun call segment calls =>
              agrees call segment (later stops rfl complete written calls)) rfl

end WindowRun

namespace Session

variable {session : Session}

/-- The same session with another dictionary. -/
def against (session : Session) (dictionary : Array UInt8) : Session :=
  { session with dictionary := dictionary }

/-- The same result with another dictionary. -/
def resultAgainst (dictionary : Array UInt8) (result : Except DecodeError (Session × Cursor) × Sink) :
    Except DecodeError (Session × Cursor) × Sink :=
  (result.1.map fun p => (p.1.against dictionary, p.2), result.2)

theorem runWindows_against {windows : WindowRun}
    (same : windows.run dictionary' session.config none c sink =
      windows.run session.dictionary session.config none c sink) :
    (session.against dictionary').runWindows windows c sink =
      resultAgainst dictionary' (session.runWindows windows c sink) := by
  simp only [runWindows, against, same]
  split <;> rfl

theorem runTable_against {version : Version} {sizes : CacheSizes} {stage : TableStage}
    (same : ∀ next behind stored decoder, stage.run c = .ok (next, behind) →
      next.stored? = some stored → install version sizes stored = .ok decoder →
        (WindowRun.ofDecoder decoder).run dictionary' session.config none behind sink =
          (WindowRun.ofDecoder decoder).run session.dictionary session.config none behind sink) :
    (session.against dictionary').runTable version sizes stage c sink =
      resultAgainst dictionary' (session.runTable version sizes stage c sink) := by
  simp only [runTable]
  split
  · rfl
  · next next behind ran =>
    split
    · rfl
    · next stored whole =>
      split
      · rfl
      · next decoder installed =>
        exact runWindows_against (same next behind stored decoder ran whole installed)

theorem run_against (same : ∀ windows c', session.Resumes c windows c' →
      windows.run dictionary' session.config none c' sink =
        windows.run session.dictionary session.config none c' sink) :
    (session.against dictionary').run c sink = resultAgainst dictionary' (session.run c sink) := by
  obtain ⟨dictionary, config, stage⟩ := session
  cases stage with
  | windows windows =>
    exact @runWindows_against dictionary' c sink ⟨dictionary, config, .header⟩ windows
      (same windows c (.windows rfl))
  | table version sizes table =>
    exact @runTable_against dictionary' c sink ⟨dictionary, config, .header⟩ version sizes table
      fun _ _ _ _ ran whole installed => same _ _ (.table rfl ran whole installed)
  | header =>
    simp only [run, against]
    cases header : TableStage.parseHeader c with
    | error error => rfl
    | ok parsed =>
      rcases parsed with _ | ⟨⟨version, cacheSizes⟩, behind⟩
      · rfl
      · rcases cacheSizes with _ | ⟨near, same'⟩
        · exact @runWindows_against dictionary' behind sink ⟨dictionary, config, .header⟩ _
            (same _ _ (.header rfl (.standard header)))
        · simp only [afterHeader]
          cases checked : CacheSizes.check near.toNat same'.toNat with
          | error error => rfl
          | ok sizes =>
            exact @runTable_against dictionary' behind sink ⟨dictionary, config, .header⟩ version
              sizes .header fun _ _ _ _ ran whole installed =>
                same _ _ (.header rfl (.table header checked ran whole installed))

end Session

namespace StreamDecoder

variable {d : StreamDecoder} {pieces : List (List UInt8)}

/-- The same decoder with another dictionary. -/
def against (d : StreamDecoder) (dictionary : Array UInt8) : StreamDecoder :=
  { d with session := d.session.map (·.against dictionary) }

theorem decodeChunk_against {piece : List UInt8}
    (same : ∀ session, d.session = some session → ∀ windows c',
      session.Resumes ⟨d.offset, d.pending ++ piece⟩ windows c' →
        windows.run dictionary' session.config none c' sink =
          windows.run session.dictionary session.config none c' sink) :
    (d.against dictionary').decodeChunk piece sink =
      ((d.decodeChunk piece sink).1, (d.decodeChunk piece sink).2.1.against dictionary',
        (d.decodeChunk piece sink).2.2) := by
  obtain ⟨config, session, pending, offset⟩ := d
  cases session with
  | none => rfl
  | some session =>
    have ran := Session.run_against (same session rfl)
    simp only [against, Option.map_some, decodeChunk, ran, Session.resultAgainst]
    rcases session.run ⟨offset, pending ++ piece⟩ sink with ⟨error | ⟨next, c⟩, sink'⟩ <;> rfl

theorem feed_against (size : dictionary.size = dictionary'.size) (ready : d.Ready config)
    (started : d.session.map (·.dictionary) = some dictionary)
    (agrees : ∀ call segment, d.Calls sink pieces call → call.segment? = some segment →
      segment.AgreesOn dictionary dictionary') :
    (d.against dictionary').feed sink pieces =
      ((d.feed sink pieces).1.map (·.against dictionary'), (d.feed sink pieces).2) := by
  induction pieces generalizing d sink with
  | nil => rfl
  | cons piece rest ih =>
    have chunk : (d.against dictionary').decodeChunk piece sink =
        ((d.decodeChunk piece sink).1, (d.decodeChunk piece sink).2.1.against dictionary',
          (d.decodeChunk piece sink).2.2) := by
      refine decodeChunk_against fun session decoding windows c' resumes => ?_
      obtain ⟨session', decoding', readySession, -⟩ := ready.session
      obtain rfl := Option.some.inj (decoding.symm.trans decoding')
      rw [decoding] at started
      obtain rfl := Option.some.inj started
      refine WindowRun.run_dictionary size (resumes.ready readySession).1 fun call segment calls =>
        agrees call segment ⟨session, _, sink, .next decoding, windows, c', resumes, calls⟩
    have sound := sound_decodeChunk ready piece sink
    simp only [feed, chunk]
    rcases first : d.decodeChunk piece sink with ⟨error | ⟨⟩, d', sink'⟩
    · rfl
    · rw [first] at sound
      refine ih sound.1 ((dictionary_decodeChunk first).trans started) ?_
      rintro call segment ⟨session, c, sink'', runs, calls⟩
      exact agrees call segment ⟨session, c, sink'', .later first runs, calls⟩

theorem finish_against (d : StreamDecoder) (dictionary : Array UInt8) :
    (d.against dictionary).finish.1 = d.finish.1 := by
  obtain ⟨config, session, pending, offset⟩ := d
  cases session with
  | none => rfl
  | some session =>
    have complete : (session.against dictionary).isComplete = session.isComplete := rfl
    simp only [against, Option.map_some, finish, complete]

/-- Decoding keeps to the source segments. The bytes of the dictionary that are in no segment of a
window that is decoded make no difference to what is written, nor to the error that there may be and
to its place. And a window whose segment is not one of the target so far comes to the same whatever
earlier windows have made, in whatever pieces it comes: with as many bytes of theirs in front of it,
or where its header is accepted behind as many as there are. -/
theorem confined (dictionary : Array UInt8) (config : DecoderConfig) :
    (∀ (dictionary' : Array UInt8) (sink : Sink) (pieces : List (List UInt8)),
      dictionary.size = dictionary'.size →
      (∀ call position length, ((idle config).start dictionary).2.Calls sink pieces call →
        call.segment? = some (.dictionary position length) →
          ∀ i, position ≤ i → i < position + length → dictionary[i]? = dictionary'[i]?) →
      decodeStream dictionary' config sink pieces = decodeStream dictionary config sink pieces) ∧
    ∀ (d e : WindowDecoder) (decoded decoded' : Nat) (history history' : Array UInt8) (c : Cursor)
        (pieces : List (List UInt8)),
      d.Ready ⟨dictionary, config, decoded⟩ history →
      e.Ready ⟨dictionary, config, decoded'⟩ history' → d.SameStart e →
      let whole := d.readHeader ⟨dictionary, config, decoded⟩ (c.extend pieces.flatten)
      decoded = decoded' ∨
        whole = e.readHeader ⟨dictionary, config, decoded'⟩ (c.extend pieces.flatten) →
      (∀ header s, whole = (.ok header, s) → header.segment.External) →
        (d.feed ⟨dictionary, config, decoded⟩ c history pieces).Mirrors history history'
          (e.feed ⟨dictionary, config, decoded'⟩ c history' pieces) := by
  refine ⟨fun dictionary' sink pieces size agrees => ?_, ?_⟩
  · have fed := @feed_against dictionary dictionary' config sink
      ((idle config).start dictionary).2 pieces size (ready_start dictionary config) rfl
      fun call segment calls about => ⟨size, fun position length same =>
        agrees call position length calls (same ▸ about)⟩
    change ((idle config).start dictionary').2.feed sink pieces = _ at fed
    simp only [decodeStream, decodePieces, fed]
    rcases ((idle config).start dictionary).2.feed sink pieces with ⟨error | d, sink'⟩
    · rfl
    · simp only [Except.map, finish_against]
  · intro d e decoded decoded' history history' c pieces ready ready' same whole read external
    refine WindowDecoder.mirrors_feed same ready ready' c pieces ?_ external
    rcases read with rfl | read
    · simp only [WindowDecoder.readHeader, same.version]
    · exact read

/-- A window that copies the two bytes of its segment twice, the second time across the segment's end.
The dictionaries differ behind the segment. -/
theorem confined_straddling :
    let dictionary : Array UInt8 := #[0x61, 0x62, 0x63]
    let dictionary' : Array UInt8 := #[0x61, 0x62, 0x64]
    let window : List UInt8 := [1, 2, 0, 7, 4, 0, 0, 1, 1, 20, 0]
    let delta := [0xD6, 0xC3, 0xC4, 0, 0] ++ window
    let d := WindowDecoder.ofVersion .standard
    (∀ call position length, ((idle {}).start dictionary).2.Calls {} [delta] call →
      call.segment? = some (.dictionary position length) →
        ∀ i, position ≤ i → i < position + length → dictionary[i]? = dictionary'[i]?) ∧
    decodeStream dictionary' {} {} [delta] = decodeStream dictionary {} {} [delta] ∧
    (decodeStream dictionary {} {} [delta]).2.written = #[0x61, 0x62, 0x61, 0x62] ∧
    d.Ready ⟨dictionary, {}, 1⟩ #[0x7A] ∧ d.Ready ⟨dictionary, {}, 2⟩ #[0x78, 0x79] ∧
    d.SameStart d ∧
    d.readHeader ⟨dictionary, {}, 1⟩ ⟨0, window⟩ = d.readHeader ⟨dictionary, {}, 2⟩ ⟨0, window⟩ ∧
    (∀ header s, d.readHeader ⟨dictionary, {}, 1⟩ ⟨0, window⟩ = (.ok header, s) →
      header.segment.External) ∧
    (d.feed ⟨dictionary, {}, 1⟩ ⟨0, window.take 4⟩ #[0x7A] [window.drop 4]).Mirrors #[0x7A]
      #[0x78, 0x79] (d.feed ⟨dictionary, {}, 2⟩ ⟨0, window.take 4⟩ #[0x78, 0x79] [window.drop 4]) := by
  intro dictionary dictionary' window delta d
  have header : TableStage.parseHeader ⟨0, delta⟩ =
      .ok (some (⟨.standard, none⟩, ⟨5, window⟩)) := by rfl
  have agrees (call : WindowCall) (position length : Nat)
      (calls : ((idle {}).start dictionary).2.Calls {} [delta] call)
      (about : call.segment? = some (.dictionary position length)) (i : Nat) (low : position ≤ i)
      (high : i < position + length) : dictionary[i]? = dictionary'[i]? := by
    obtain ⟨session, c, sink, runs, windows, c', resumes, calls⟩ := calls
    cases runs with
    | later first others => cases others
    | next decoding =>
      obtain rfl := Option.some.inj decoding
      cases resumes with
      | windows stage => cases stage
      | table stage => cases stage
      | header stage opens =>
        cases opens with
        | table header' => cases header'.symm.trans header
        | standard header' =>
          cases header'.symm.trans header
          cases calls with
          | later goes decoded complete written others =>
            subst decoded
            exact absurd (.inr (by decide +kernel)) others.goes
          | next goes =>
            have segment : ((WindowRun.ofDecoder d).nextCall dictionary {} ⟨5, window⟩ {}).segment? =
                some (.dictionary 0 2) := by decide +kernel
            cases segment.symm.trans about
            rcases i with _ | _ | i
            · rfl
            · rfl
            · omega
  have ready : d.Ready ⟨dictionary, {}, 1⟩ #[0x7A] :=
    ⟨CodeTable.valid_standard, fun _ => rfl, fun _ h => by cases h⟩
  have ready' : d.Ready ⟨dictionary, {}, 2⟩ #[0x78, 0x79] :=
    ⟨CodeTable.valid_standard, fun _ => rfl, fun _ h => by cases h⟩
  have same : d.SameStart d := ⟨⟨rfl, rfl⟩, rfl, rfl, rfl⟩
  have read : d.readHeader ⟨dictionary, {}, 1⟩ ⟨0, window⟩ =
      d.readHeader ⟨dictionary, {}, 2⟩ ⟨0, window⟩ := by decide +kernel
  have external (header : WindowHeader) (s : HeaderState)
      (read : d.readHeader ⟨dictionary, {}, 1⟩ ⟨0, window⟩ = (.ok header, s)) :
      header.segment.External := by
    have first : (d.readHeader ⟨dictionary, {}, 1⟩ ⟨0, window⟩).1 =
        .ok ⟨.dictionary 0 2, 4, ⟨0, 1, 1, none⟩⟩ := by decide +kernel
    rw [read] at first
    cases first
    trivial
  obtain ⟨streams, windows⟩ := confined dictionary {}
  exact ⟨agrees, streams dictionary' {} [delta] rfl agrees, by decide +kernel, ready, ready', same,
    read, external, windows d d 1 2 _ _ ⟨0, window.take 4⟩ [window.drop 4] ready ready' same
      (.inr read) external⟩

end StreamDecoder

end DeltaCoding
