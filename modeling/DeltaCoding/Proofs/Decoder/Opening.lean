import DeltaCoding.Proofs.Decoder.Chunking

/-!
# Opening a delta

`Session.Opens` says what a whole file header is, with the delta of its code table if it announces
one, and with what decoder the windows behind it are decoded. A session that has got through a file
header goes on with its windows whatever follows (`Session.Opens.run`, `Session.Opens.extend`). One
that has not got through has written nothing, and a delta may end there only if nothing has been read
of it (`Session.opens_or_rests`).
-/

namespace DeltaCoding

/-- The run is in front of a window, and can go on. -/
structure WindowRun.Between (run : WindowRun) (dictionary : Array UInt8) (config : DecoderConfig) :
    Prop where
  ready : run.Ready dictionary config
  phase : run.decoder.phase = .header

theorem WindowRun.Between.inWindow {run : WindowRun} {dictionary : Array UInt8}
    {config : DecoderConfig} (h : run.Between dictionary config) : run.decoder.inWindow = false :=
  WindowDecoder.inWindow_eq_false.2 h.phase

theorem WindowRun.between_ofDecoder {decoder : WindowDecoder} {dictionary : Array UInt8}
    {config : DecoderConfig} (valid : decoder.Valid) (phase : decoder.phase = .header) :
    (ofDecoder decoder).Between dictionary config :=
  ⟨ready_ofDecoder valid phase, phase⟩

namespace WindowRun

/-- The run behind a complete window. -/
def next (start : WindowRun) (config : DecoderConfig) (progress : WindowProgress)
    (first last : Nat) : WindowRun :=
  ⟨progress.decoder, if config.allowTarget then progress.target else #[],
    start.total + (last - first)⟩

variable {dictionary : Array UInt8} {config : DecoderConfig} {start : WindowRun} {c : Cursor}

theorem Between.next (h : start.Between dictionary config) {progress : WindowProgress}
    (decoded : start.decoder.decode ⟨dictionary, config, start.total⟩ c start.target = progress)
    {low high : Nat} (complete : progress.outcome = .ok (.complete low high)) :
    (start.next config progress low high).Between dictionary config ∧
      ¬ (progress.target.size < high ∨ high < low) := by
  have sound := WindowDecoder.sound_decode h.ready.ready c
  rw [decoded] at sound
  obtain ⟨-, phase, -, stopEq, ordered, -⟩ := sound.complete low high complete
  exact ⟨⟨ready_next sound complete, phase⟩, by omega⟩

end WindowRun

namespace Session

variable {dictionary : Array UInt8} {config : DecoderConfig} {c c' : Cursor}
  {decoder : WindowDecoder}

/-- Between `c` and `c'` there is a file header, with the delta of its code table if it has one. The
windows behind it are for the decoder. -/
inductive Opens (c : Cursor) : WindowDecoder → Cursor → Prop where
  | standard {version : Version} {c' : Cursor}
      (header : TableStage.parseHeader c = .ok (some (⟨version, none⟩, c'))) :
      Opens c (.ofVersion version) c'
  | table {version : Version} {near same : UInt8} {behind c' : Cursor} {sizes : CacheSizes}
      {stage : TableStage} {stored : Array UInt8} {decoder : WindowDecoder}
      (header : TableStage.parseHeader c = .ok (some (⟨version, some (near, same)⟩, behind)))
      (checked : CacheSizes.check near.toNat same.toNat = .ok sizes)
      (ran : TableStage.header.run behind = .ok (stage, c')) (whole : stage.stored? = some stored)
      (installed : install version sizes stored = .ok decoder) : Opens c decoder c'

namespace Opens

theorem run (h : Opens c decoder c') (dictionary : Array UInt8) (config : DecoderConfig)
    (sink : Sink) : (start dictionary config).run c sink =
      (start dictionary config).runWindows (.ofDecoder decoder) c' sink := by
  cases h with
  | standard header => simp only [Session.start, Session.run, header, afterHeader]
  | table header checked ran whole installed =>
    simp only [Session.start, Session.run, header, afterHeader, checked, runTable, ran, whole,
      installed]

theorem between (h : Opens c decoder c') : (WindowRun.ofDecoder decoder).Between dictionary config := by
  cases h with
  | standard header => exact WindowRun.between_ofDecoder CodeTable.valid_standard rfl
  | table header checked ran whole installed =>
    obtain ⟨valid, phase⟩ := valid_install installed
    exact WindowRun.between_ofDecoder valid phase

theorem reaches (h : Opens c decoder c') : c.Reaches c' := by
  cases h with
  | standard header => exact TableStage.reaches_parseHeader header
  | @table _ _ _ behind _ _ _ _ _ header checked ran whole installed =>
    have sound := @TableStage.sound_run .header trivial behind
    rw [ran] at sound
    exact (TableStage.reaches_parseHeader header).trans sound.2

end Opens

end Session

theorem TableStage.run_extend {stage next : TableStage} {c c' : Cursor} {stored : Array UInt8}
    (ready : stage.Ready) (ran : stage.run c = .ok (next, c')) (whole : next.stored? = some stored)
    (more : List UInt8) :
    ∃ next', stage.run (c.extend more) = .ok (next', c'.extend more) ∧
      next'.stored? = some stored := by
  have split := TableStage.split_run ready c more
  have sound := TableStage.sound_run ready c
  rw [ran] at split sound
  simp only [Splits, run_stored sound.1 whole] at split
  cases extended : stage.run (c.extend more) with
  | error error =>
    rw [extended] at split
    exact split.elim
  | ok p =>
    obtain ⟨next', behind⟩ := p
    rw [extended] at split
    obtain ⟨stored', same⟩ := split
    rw [whole] at stored'
    obtain rfl := same (by rw [stored']; rfl)
    exact ⟨next', rfl, stored'⟩

namespace Session

variable {dictionary : Array UInt8} {config : DecoderConfig} {c c' : Cursor}
  {decoder : WindowDecoder}

theorem Opens.extend (h : Opens c decoder c') (more : List UInt8) :
    Opens (c.extend more) decoder (c'.extend more) := by
  cases h with
  | standard header => exact .standard (TableStage.parseHeader_extend header more)
  | table header checked ran whole installed =>
    obtain ⟨next, ran', whole'⟩ := @TableStage.run_extend .header _ _ _ _ trivial ran whole more
    exact .table (TableStage.parseHeader_extend header more) checked ran' whole' installed

/-- A session that has not got through the file header has written nothing, and the delta may end
there only if nothing has been read. -/
theorem opens_or_rests (dictionary : Array UInt8) (config : DecoderConfig) (c : Cursor)
    (sink : Sink) : (∃ decoder c', Opens c decoder c') ∨
      (∃ error, (start dictionary config).run c sink = (.error error, sink)) ∨
      ∃ session c', (start dictionary config).run c sink = (.ok (session, c'), sink) ∧
        (session.isComplete = true → c' = c) := by
  cases parsed : TableStage.parseHeader c with
  | error error => exact .inr (.inl ⟨error, by simp only [start, run, parsed]⟩)
  | ok header =>
    cases header with
    | none =>
      exact .inr (.inr ⟨start dictionary config, c, by simp only [start, run, parsed], fun _ => rfl⟩)
    | some p =>
      obtain ⟨⟨version, cacheSizes⟩, behind⟩ := p
      cases cacheSizes with
      | none => exact .inl ⟨_, _, .standard parsed⟩
      | some sizes =>
        obtain ⟨near, same⟩ := sizes
        cases checked : CacheSizes.check near.toNat same.toNat with
        | error error =>
          exact .inr (.inl ⟨.locate c.offset error,
            by simp only [start, run, parsed, afterHeader, checked]⟩)
        | ok sizes =>
          cases ran : TableStage.header.run behind with
          | error error =>
            exact .inr (.inl ⟨error,
              by simp only [start, run, parsed, afterHeader, checked, runTable, ran]⟩)
          | ok p =>
            obtain ⟨stage, c'⟩ := p
            cases whole : stage.stored? with
            | none =>
              exact .inr (.inr ⟨⟨dictionary, config, .table version sizes stage⟩, c',
                by simp only [start, run, parsed, afterHeader, checked, runTable, ran, whole],
                fun h => by cases h⟩)
            | some stored =>
              cases installed : install version sizes stored with
              | error fault =>
                exact .inr (.inl ⟨.locate behind.offset (.invalidCodeTable fault),
                  by simp only [start, run, parsed, afterHeader, checked, runTable, ran, whole,
                    installed]⟩)
              | ok decoder => exact .inl ⟨_, _, .table parsed checked ran whole installed⟩

end Session

end DeltaCoding
