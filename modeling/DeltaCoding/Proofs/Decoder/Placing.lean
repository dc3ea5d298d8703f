import DeltaCoding.Proofs.Decoder.Independence
import DeltaCoding.Proofs.Decoder.Trace
import DeltaCoding.Proofs.Window.Placing

/-!
# Where a delta fails

A delta that comes in pieces fails at the same place as in one piece (`decodeStream_pieces`), but for
two cases. A code table that is not valid is placed where the piece that completes it has been taken
up (`decodeStream_refused`). And with a table that has opcodes without effect, an interleaved body may
be resumed behind such opcodes, so that the instruction behind them starts later
(`decodeStream_moves`).

What two sessions write and how they end has been compared before (`Session.Splits`). What is left to
compare is the errors that they fail with, at each of the layers in turn.
-/

namespace DeltaCoding

/-- The error that a call ends with, if it fails. -/
def failure? {α : Type} : Except DecodeError α → Option DecodeError
  | .error error => some error
  | .ok _ => none

namespace WindowRun

variable {dictionary : Array UInt8} {config : DecoderConfig} {stopAt : Option Nat} {c c' : Cursor}
  {sink sink' : Sink} {start next : WindowRun}

theorem failure_sameStart {d e : WindowDecoder} (same : d.SameStart e) (target : Array UInt8)
    (total : Nat) : failure? (run dictionary config stopAt c sink ⟨d, target, total⟩).1 =
      failure? (run dictionary config stopAt c sink ⟨e, target, total⟩).1 := by
  by_cases stops : stopAt = some total ∨ c.isEmpty = true
  · rw [run_stops stops, run_stops stops]
    rfl
  · rw [run_goes _ stops, run_goes _ stops]
    simp only
    rcases WindowDecoder.decode_sameStart same ⟨dictionary, config, total⟩ c target with
      equal | ⟨outcome, incomplete, left, right⟩
    · rw [equal]
    · rw [left, right]
      rcases outcome with error | status
      · rfl
      · cases status with
        | needMoreData => rfl
        | complete start stop => exact absurd rfl (incomplete start stop)

theorem failure_proceed {p q : WindowProgress} {total : Nat} (alike : p.Alike q)
    (outcome : p.outcome = q.outcome) :
    failure? (proceed dictionary config stopAt sink total p).1 =
      failure? (proceed dictionary config stopAt sink total q).1 := by
  obtain ⟨result, d, c, target⟩ := p
  obtain ⟨_, e, c', target'⟩ := q
  simp only at outcome
  subst outcome
  rcases result with error | status
  · rfl
  · cases status with
    | needMoreData => rfl
    | complete low high =>
      obtain ⟨-, -, cursors, targets, same⟩ := alike
      simp only at cursors targets same
      subst cursors targets
      simp only [proceed]
      split
      · rfl
      · split
        · rfl
        · exact failure_sameStart same _ _

theorem steady_run (steady : start.decoder.Steady)
    (ran : run dictionary config stopAt c sink start = (.ok (next, c'), sink')) :
    next.decoder.Steady := by
  fun_induction run dictionary config stopAt c sink start with
  | case1 => cases ran; exact steady
  | case2 => cases ran
  | case3 c sink decoder target total goes progress stalled =>
    cases ran
    exact steady.decode stalled
  | case4 => cases ran
  | case5 => cases ran
  | case6 c sink decoder target total goes progress start stop complete inside sink₁ written ih =>
    exact ih (steady.decode complete) ran

/-- A run that goes on with more input fails with the error that it would have failed with at once.
-/
theorem failure_split (ready : start.Ready dictionary config) (steady : start.decoder.Steady)
    (ran : run dictionary config stopAt c sink start = (.ok (next, c'), sink'))
    (more : List UInt8) :
    failure? (run dictionary config stopAt (c.extend more) sink start).1 =
      failure? (run dictionary config stopAt (c'.extend more) sink' next).1 := by
  -- Along the windows of the first piece, up to the one that waits.
  fun_induction run dictionary config stopAt c sink start with
  | case1 => cases ran; rfl
  | case2 => cases ran
  | case3 c sink decoder target total goes progress stalled =>
    cases ran
    have decoded : decoder.decode ⟨dictionary, config, total⟩ c target = progress := rfl
    have stop : stopAt ≠ some total := fun stop => goes (.inl stop)
    by_cases none : (progress.cursor.extend more).isEmpty = true
    · obtain rfl := nil_of_isEmpty_extend none
      rw [run_goes _ (goes_extend goes []), run_stops (.inr none)]
      simp only [Cursor.extend_nil, decoded, proceed, stalled]
    · rw [run_goes _ (goes_extend goes more), run_goes _ (by simp [stop, none])]
      exact failure_proceed (WindowDecoder.decode_resume ready.ready stalled more)
        (WindowDecoder.outcome_resume steady stalled more)
  | case4 => cases ran
  | case5 => cases ran
  | case6 c sink decoder target total goes progress start stop complete inside sink₁ written ih =>
    have sound := WindowDecoder.sound_decode ready.ready c
    rw [run_extend ready goes (show _ = progress from rfl) (by rw [complete]; rintro ⟨⟩)]
    simp only [proceed, complete, if_neg inside, written]
    exact ih (ready_next sound complete) (steady.decode complete) ran

end WindowRun

theorem WindowDecoder.steady_ofVersion (version : Version) : (ofVersion version).Steady :=
  .inr ⟨⟨_, CodeTable.valid_standard⟩, CodeTable.effective_standard, fun _ h => by cases h⟩

/-! ## The delta of a code table -/

namespace TableStage

variable {stage next : TableStage} {run : WindowRun} {c c' : Cursor}

/-- No body of the delta stalls at an opcode that stands for nothing. -/
def Steady : TableStage → Prop
  | header => True
  | windows run => run.decoder.Steady

theorem failure_runWindows (run : WindowRun) (c : Cursor) (sink : Sink)
    (unbounded : sink.capacity = none) : failure? (runWindows run c) = failure?
      (run.run CodeTable.standardBytes config (some CodeTable.storedSize) c sink).1 := by
  rw [WindowRun.run_unbounded run unbounded {} rfl]
  simp only [runWindows]
  cases (run.run CodeTable.standardBytes config (some CodeTable.storedSize) c {}).1 <;> rfl

theorem of_runWindows (ran : runWindows run c = .ok (next, c')) : ∃ run' sink',
    run.run CodeTable.standardBytes config (some CodeTable.storedSize) c {} =
      (.ok (run', c'), sink') ∧ next = .windows run' := by
  simp only [runWindows] at ran
  split at ran
  · next run' c' same =>
    cases ran
    exact ⟨run', _, Prod.ext same rfl, rfl⟩
  · cases ran

theorem run_cases (steady : stage.Steady) (ready : stage.Ready) (ran : stage.run c = .ok (next, c')) :
    (next = stage ∧ c' = c) ∨ ∃ run c₁, run.Ready CodeTable.standardBytes config ∧
      run.decoder.Steady ∧ runWindows run c₁ = .ok (next, c') ∧
      ∀ more, stage.run (c.extend more) = runWindows run (c₁.extend more) := by
  cases stage with
  | windows run => exact .inr ⟨run, c, ready, steady, ran, fun _ => rfl⟩
  | header =>
    simp only [TableStage.run] at ran
    split at ran
    · cases ran
    · cases ran
      exact .inl ⟨rfl, rfl⟩
    · next fileHeader behind parsed =>
      split at ran
      · cases ran
      · next plain =>
        have valid : (WindowDecoder.ofVersion fileHeader.version).Valid := CodeTable.valid_standard
        refine .inr ⟨_, behind, WindowRun.ready_ofDecoder valid rfl,
          WindowDecoder.steady_ofVersion _, ran, fun more => ?_⟩
        simp only [TableStage.run, parseHeader_extend parsed more]
        rw [if_neg plain]

theorem steady_run (steady : stage.Steady) (ready : stage.Ready)
    (ran : stage.run c = .ok (next, c')) : next.Steady := by
  rcases run_cases steady ready ran with ⟨rfl, -⟩ | ⟨run, c₁, -, steadyRun, ranWindows, -⟩
  · exact steady
  · obtain ⟨run', sink', ran', rfl⟩ := of_runWindows ranWindows
    exact WindowRun.steady_run steadyRun ran'

theorem failure_split (steady : stage.Steady) (ready : stage.Ready)
    (ran : stage.run c = .ok (next, c')) (more : List UInt8) :
    failure? (stage.run (c.extend more)) = failure? (next.run (c'.extend more)) := by
  rcases run_cases steady ready ran with ⟨rfl, rfl⟩ | ⟨run, c₁, readyRun, steadyRun, ranWindows, goes⟩
  · rfl
  · obtain ⟨run', sink', ran', rfl⟩ := of_runWindows ranWindows
    have capacity := @WindowRun.capacity_run CodeTable.standardBytes config
      (some CodeTable.storedSize) c₁ {} run
    rw [ran'] at capacity
    change _ = failure? (runWindows run' (c'.extend more))
    rw [goes, failure_runWindows run _ {} rfl, failure_runWindows run' _ sink' capacity]
    exact WindowRun.failure_split readyRun steadyRun ran' more

end TableStage

/-! ## Whole deltas -/

/-- The result is not that the code table is refused, unless it is so for having a code table of its
own. -/
def TakesTable {α : Type} (result : Except DecodeError α) : Prop :=
  ∀ offset fault, failure? result = some (.format offset (.invalidCodeTable fault)) → fault = .nested

namespace CodeTable

theorem checkSlots_ne_nested (maxMode : Nat) (opcodes : List (UInt8 × Entry)) :
    checkSlots maxMode opcodes ≠ .error .nested := by
  have slot (slot : Slot) (opcode : Nat) : slot.check opcode maxMode ≠ .error .nested := by
    simp only [Slot.check]
    repeat' split
    all_goals rintro ⟨⟩
  induction opcodes with
  | nil => rintro ⟨⟩
  | cons p rest ih =>
    simp only [checkSlots, bind, Except.bind]
    split
    · next first => exact first ▸ slot _ _
    · split
      · next second => exact second ▸ slot _ _
      · exact ih

theorem validate_ne_nested (table : CodeTable) (maxMode : Nat) :
    table.validate maxMode ≠ .error .nested := by
  simp only [validate, bind, Except.bind]
  split
  · next slots => exact slots ▸ checkSlots_ne_nested maxMode table.toList
  · split
    · next slot fault missing =>
      rintro ⟨⟩
      have mem := List.mem_of_find?_eq_some missing
      simp [required] at mem
    · rintro ⟨⟩

end CodeTable

namespace Session

variable {session next : Session} {c c' : Cursor} {sink sink' : Sink}

theorem install_ne_nested {version : Version} {sizes : CacheSizes} {stored : Array UInt8} :
    install version sizes stored ≠ .error .nested := by
  simp only [install, CodeTable.ofBytes]
  split
  · simp only [bind, Except.bind]
    split
    · next refused =>
      rintro ⟨⟩
      exact CodeTable.validate_ne_nested _ _ refused
    · rintro ⟨⟩
  · rintro ⟨⟩

/-- No body that the session meets from `c` on stalls at an opcode that stands for nothing. -/
structure Steady (session : Session) (c : Cursor) : Prop where
  windows : ∀ windows c', session.Resumes c windows c' → windows.decoder.Steady
  table : ∀ version sizes stage c', session.ResumesTable c version sizes stage c' → stage.Steady

theorem Resumes.extend (ready : session.Ready) {windows : WindowRun}
    (h : session.Resumes c windows c') (more : List UInt8) :
    session.Resumes (c.extend more) windows (c'.extend more) := by
  obtain ⟨dictionary, config, _⟩ := session
  cases h with
  | windows stage => exact .windows stage
  | header stage opens => exact .header stage (opens.extend more)
  | table stage ran whole installed =>
    obtain rfl := stage
    obtain ⟨next, ran', whole'⟩ := TableStage.run_extend ready ran whole more
    exact .table rfl ran' whole' installed

theorem ResumesTable.extend {version : Version} {sizes : CacheSizes} {stage : TableStage}
    (h : session.ResumesTable c version sizes stage c') (more : List UInt8) :
    session.ResumesTable (c.extend more) version sizes stage (c'.extend more) := by
  cases h with
  | table stage => exact .table stage
  | header stage header checked =>
    exact .header stage (TableStage.parseHeader_extend header more) checked

theorem of_runWindows {windows : WindowRun}
    (ran : session.runWindows windows c sink = (.ok (next, c'), sink')) : ∃ windows',
      windows.run session.dictionary session.config none c sink = (.ok (windows', c'), sink') ∧
        next = { session with stage := .windows windows' } := by
  simp only [runWindows] at ran
  split at ran
  · next same =>
    cases ran
    exact ⟨_, same, rfl⟩
  · cases ran

theorem stops_of_run (ran : session.run c sink = (.ok (next, c'), sink')) :
    (∃ windows c₁ windows', session.Resumes c windows c₁ ∧
        windows.run session.dictionary session.config none c₁ sink = (.ok (windows', c'), sink') ∧
        next = { session with stage := .windows windows' }) ∨
      (∃ version sizes stage c₁ stage', session.ResumesTable c version sizes stage c₁ ∧
        stage.run c₁ = .ok (stage', c') ∧
        next = { session with stage := .table version sizes stage' } ∧ sink' = sink) ∨
      (next = session ∧ c' = c ∧ sink' = sink) := by
  have windows {windows : WindowRun} {c₁ : Cursor} (resumes : session.Resumes c windows c₁) :
      ∃ windows c₁ windows', session.Resumes c windows c₁ ∧
        windows.run session.dictionary session.config none c₁ sink = (.ok (windows', c'), sink') ∧
        next = { session with stage := .windows windows' } := by
    rw [resumes.run] at ran
    obtain ⟨windows', ran', rfl⟩ := of_runWindows ran
    exact ⟨windows, c₁, windows', resumes, ran', rfl⟩
  rcases session.run_cases c sink with
    ⟨_, _, resumes⟩ | ⟨version, sizes, stage, c₁, resumes⟩ | ⟨error, failed⟩ | waits
  · exact .inl (windows resumes)
  · rcases resumes.run_cases sink with ⟨error, failed⟩ | ⟨stage', behind, ran', -, waits⟩ |
      ⟨_, _, resumes⟩
    · rw [failed] at ran
      cases ran
    · rw [waits] at ran
      cases ran
      exact .inr (.inl ⟨version, sizes, stage, c₁, stage', resumes, ran', rfl, rfl⟩)
    · exact .inl (windows resumes)
  · rw [failed] at ran
    cases ran
  · rw [waits] at ran
    cases ran
    exact .inr (.inr ⟨rfl, rfl, rfl⟩)

theorem Steady.run (ready : session.Ready) (more : List UInt8)
    (steady : session.Steady (c.extend more))
    (ran : session.run c sink = (.ok (next, c'), sink')) : next.Steady (c'.extend more) := by
  rcases stops_of_run ran with ⟨windows, c₁, windows', resumes, ran', rfl⟩ |
    ⟨version, sizes, stage, c₁, stage', resumes, ran', rfl, -⟩ | ⟨rfl, rfl, -⟩
  · have kept := WindowRun.steady_run (steady.windows _ _ (resumes.extend ready more)) ran'
    refine ⟨fun _ _ later => ?_, fun _ _ _ _ later => ?_⟩
    · cases later with
      | windows stage => cases stage; exact kept
      | header stage => cases stage
      | table stage => cases stage
    · cases later with
      | table stage => cases stage
      | header stage => cases stage
  · have readyStage := resumes.ready ready
    have kept := TableStage.steady_run (steady.table _ _ _ _ (resumes.extend more)) readyStage ran'
    have split := TableStage.split_run readyStage c₁ more
    rw [ran'] at split
    refine ⟨fun _ _ later => ?_, fun _ _ _ _ later => ?_⟩
    · cases later with
      | windows stage => cases stage
      | header stage => cases stage
      | table stage ran₂ whole installed =>
        cases stage
        simp only [TableStage.Splits, ran₂] at split
        cases ran₁ : stage.run (c₁.extend more) with
        | error error =>
          rw [ran₁] at split
          exact split.elim
        | ok p =>
          rw [ran₁] at split
          exact steady.windows _ _ ((resumes.extend more).resumes ran₁ (split.1.trans whole) installed)
    · cases later with
      | table stage => cases stage; exact kept
      | header stage => cases stage
  · exact steady

theorem failure_runWindows (session : Session) (windows : WindowRun) (c : Cursor) (sink : Sink) :
    failure? (session.runWindows windows c sink).1 =
      failure? (windows.run session.dictionary session.config none c sink).1 := by
  simp only [runWindows]
  rcases windows.run session.dictionary session.config none c sink with ⟨_ | _, _⟩ <;> rfl

theorem failure_runTable {version : Version} {sizes : CacheSizes} {stage next : TableStage}
    (agree : TableStage.Agree (stage.run c) (next.run c'))
    (same : failure? (stage.run c) = failure? (next.run c'))
    (takes : TakesTable (session.runTable version sizes stage c sink).1) :
    failure? (session.runTable version sizes stage c sink).1 =
      failure? (session.runTable version sizes next c' sink).1 := by
  simp only [runTable] at takes ⊢
  generalize stage.run c = first at *
  generalize next.run c' = second at *
  rcases first with error | ⟨stage₁, c₁⟩
  · rcases second with error' | p'
    · exact same
    · exact agree.elim
  · rcases second with error' | ⟨stage₂, c₂⟩
    · exact agree.elim
    · obtain ⟨stored, cursors⟩ := agree
      simp only [← stored] at takes ⊢
      cases whole : stage₁.stored? with
      | none => rfl
      | some bytes =>
        obtain rfl := cursors (by rw [whole]; rfl)
        rw [whole] at takes
        simp only at takes ⊢
        cases installed : install version sizes bytes with
        | ok decoder => rfl
        | error fault =>
          rw [installed] at takes
          obtain rfl := takes _ _ rfl
          exact absurd installed install_ne_nested

theorem failure_split (ready : session.Ready) (more : List UInt8)
    (steady : session.Steady (c.extend more))
    (takes : TakesTable (session.run (c.extend more) sink).1)
    (ran : session.run c sink = (.ok (next, c'), sink')) :
    failure? (session.run (c.extend more) sink).1 = failure? (next.run (c'.extend more) sink').1 := by
  rcases stops_of_run ran with ⟨windows, c₁, windows', resumes, ran', rfl⟩ |
    ⟨version, sizes, stage, c₁, stage', resumes, ran', rfl, rfl⟩ | ⟨rfl, rfl, rfl⟩
  · have steadyWindows := steady.windows _ _ (resumes.extend ready more)
    rw [(resumes.extend ready more).run, failure_runWindows]
    change _ = failure? (runWindows _ windows' (c'.extend more) sink').1
    rw [failure_runWindows]
    exact WindowRun.failure_split (resumes.ready ready).1 steadyWindows ran' more
  · have readyStage := resumes.ready ready
    have steadyStage := steady.table _ _ _ _ (resumes.extend more)
    have agree := TableStage.split_run readyStage c₁ more
    rw [ran'] at agree
    rw [(resumes.extend more).run] at takes ⊢
    exact failure_runTable agree (TableStage.failure_split steadyStage readyStage ran' more) takes
  · rfl

theorem Opens.steady {decoder : WindowDecoder} (h : Opens c decoder c')
    (effective : decoder.version = .sdch → decoder.reader.table.Effective) : decoder.Steady := by
  cases h with
  | standard header => exact WindowDecoder.steady_ofVersion _
  | table header checked ran whole installed =>
    obtain ⟨valid, phase⟩ := valid_install installed
    cases version : decoder.version with
    | standard => exact .inl ⟨version, phase⟩
    | sdch =>
      have meets := effective version
      simp only [install, bind, Except.bind] at installed
      split at installed
      · cases installed
      · split at installed
        · cases installed
        · cases installed
          exact .inr ⟨⟨_, valid⟩, meets, fun _ h => by cases h⟩

theorem steady_start {dictionary : Array UInt8} {config : DecoderConfig}
    (effective : ∀ decoder c', Opens c decoder c' → decoder.version = .sdch →
      decoder.reader.table.Effective) : (start dictionary config).Steady c := by
  refine ⟨fun windows c' resumes => ?_, fun version sizes stage c' resumes => ?_⟩
  · cases resumes with
    | windows stage => cases stage
    | header stage opens => exact opens.steady (effective _ _ opens)
    | table stage => cases stage
  · cases resumes with
    | table stage => cases stage
    | header stage => exact trivial

end Session

/-! ## Streams -/

namespace StreamDecoder

variable {config : DecoderConfig} {session next : Session} {c c' : Cursor} {sink sink' : Sink}

/-- A session that has taken a piece ends with the rest as it would have ended with all of it. -/
theorem conclude_split (ready : session.Ready) (more : List UInt8)
    (steady : session.Steady (c.extend more))
    (takes : TakesTable (session.run (c.extend more) sink).1)
    (ran : session.run c sink = (.ok (next, c'), sink')) :
    conclude config (session.run (c.extend more) sink) =
      conclude config (next.run (c'.extend more) sink') := by
  have same := Session.failure_split ready more steady takes ran
  have agree := Session.split_run ready c sink more
  have first := Session.sound_run ready c sink
  rw [ran] at agree first
  obtain ⟨readyNext, -, reaches, -⟩ := first
  have whole := Session.sound_run ready (c.extend more) sink
  have resumed := Session.sound_run readyNext (c'.extend more) sink'
  simp only [Session.Splits] at agree
  generalize session.run (c.extend more) sink = p at *
  generalize next.run (c'.extend more) sink' = q at *
  rcases p with ⟨error | ⟨s, stop⟩, sink₁⟩
  · rcases q with ⟨error' | q', sink₂⟩
    · obtain rfl := agree.2
      obtain rfl := Option.some.inj same
      rfl
    · exact agree.elim
  · rcases q with ⟨error' | ⟨s', stop'⟩, sink₂⟩
    · exact agree.elim
    · obtain ⟨rfl, complete, cursors⟩ := agree
      cases ends : s.isComplete with
      | true =>
        obtain rfl := cursors ends
        simp only [conclude, finish, ends, ← complete]
      | false =>
        have left := whole.2.2.1.offset_add_length
        have right := resumed.2.2.1.offset_add_length
        have before := reaches.offset_add_length
        simp only [Cursor.extend_offset, Cursor.extend_rest, List.length_append] at left right
        have offset : stop.offset + stop.rest.length = stop'.offset + stop'.rest.length := by omega
        simp only [conclude, finish, ends, ← complete, Bool.and_false, offset]

theorem decodePieces_flatten (ready : session.Ready) (pending : List UInt8) (offset : Nat)
    (sink : Sink) (piece : List UInt8) (rest : List (List UInt8))
    (steady : session.Steady ⟨offset, pending ++ (piece ++ rest.flatten)⟩)
    (takes : TakesTable (session.run ⟨offset, pending ++ (piece ++ rest.flatten)⟩ sink).1) :
    decodePieces ⟨config, some session, pending, offset⟩ sink (piece :: rest) =
      conclude config (session.run ⟨offset, pending ++ (piece ++ rest.flatten)⟩ sink) := by
  -- By the pieces after the first one, which the session takes as one piece.
  induction rest generalizing session pending offset sink piece with
  | nil => rw [List.flatten_nil, List.append_nil, decodePieces_last]
  | cons second rest ih =>
    rw [List.flatten_cons] at steady takes ⊢
    have extended : (⟨offset, pending ++ (piece ++ (second ++ rest.flatten))⟩ : Cursor) =
        (⟨offset, pending ++ piece⟩ : Cursor).extend (second ++ rest.flatten) := by
      rw [Cursor.extend, List.append_assoc]
    rw [extended] at steady takes ⊢
    have split := Session.split_run ready ⟨offset, pending ++ piece⟩ sink (second ++ rest.flatten)
    have sound := Session.sound_run ready ⟨offset, pending ++ piece⟩ sink
    simp only [decodePieces, feed, decodeChunk]
    rcases ran : session.run ⟨offset, pending ++ piece⟩ sink with ⟨error | ⟨next, c⟩, sink'⟩
    · rw [ran] at split
      simp only [Session.Splits] at split
      rw [split]
      rfl
    · rw [ran] at sound
      have failures := Session.failure_split ready _ steady takes ran
      rw [conclude_split ready _ steady takes ran]
      exact ih sound.1 c.rest c.offset sink' second (steady.run ready _ ran)
        (fun offset fault refused => takes offset fault (failures.trans refused))

theorem decodeStream_flatten (dictionary : Array UInt8) (config : DecoderConfig) (sink : Sink)
    (pieces : List (List UInt8))
    (effective : ∀ decoder c, Session.Opens ⟨0, pieces.flatten⟩ decoder c →
      decoder.version = .sdch → decoder.reader.table.Effective)
    (takes : TakesTable ((Session.start dictionary config).run ⟨0, pieces.flatten⟩ sink).1) :
    decodeStream dictionary config sink pieces =
      conclude config ((Session.start dictionary config).run ⟨0, pieces.flatten⟩ sink) := by
  cases pieces with
  | nil => rfl
  | cons piece rest =>
    have ready : (Session.start dictionary config).Ready := trivial
    exact decodePieces_flatten ready [] 0 sink piece rest (Session.steady_start effective) takes

end StreamDecoder

theorem takesTable_of_unlocated {α : Type} {result result' : Except DecodeError α}
    (same : result.mapError DecodeError.unlocated = result'.mapError DecodeError.unlocated)
    (takes : TakesTable result) : TakesTable result' := by
  intro offset fault refused
  cases result' with
  | ok a => cases refused
  | error error =>
    obtain rfl := Option.some.inj refused
    cases result with
    | ok a => cases same
    | error error =>
      obtain ⟨offset', rfl⟩ := DecodeError.format_of_unlocated (Except.error.inj same)
      exact takes offset' fault rfl

/-- The place of an error does not depend on the pieces that the delta comes in, and neither does
anything else that a session comes to. This is so if the code table of the delta is not what is
wrong, and if, in the format that has interleaved windows, each of its opcodes stands for an
instruction. -/
theorem decodeStream_pieces (dictionary : Array UInt8) (config : DecoderConfig) (sink : Sink)
    {pieces pieces' : List (List UInt8)} (same : pieces.flatten = pieces'.flatten)
    (effective : ∀ decoder c, Session.Opens ⟨0, pieces.flatten⟩ decoder c →
      decoder.version = .sdch → decoder.reader.table.Effective)
    (takes : TakesTable (decodeStream dictionary config sink pieces).1) :
    decodeStream dictionary config sink pieces = decodeStream dictionary config sink pieces' := by
  have agree := StreamDecoder.agree_start dictionary config sink pieces
  have whole : TakesTable ((Session.start dictionary config).run ⟨0, pieces.flatten⟩ sink).1 := by
    have concluded := takesTable_of_unlocated agree.2 takes
    generalize (Session.start dictionary config).run ⟨0, pieces.flatten⟩ sink = result at concluded ⊢
    rcases result with ⟨error | p, sink'⟩
    · exact concluded
    · exact fun _ _ refused => by cases refused
  rw [StreamDecoder.decodeStream_flatten dictionary config sink pieces effective whole]
  rw [same] at effective whole ⊢
  rw [StreamDecoder.decodeStream_flatten dictionary config sink pieces' effective whole]

/-- An instruction that is too large is found behind the one before it, whole or byte by byte. -/
theorem decodeStream_pieces_bytewise :
    let delta : List UInt8 := [0xD6, 0xC3, 0xC4, 0x53, 0, 0, 9, 5, 0, 0, 4, 0, 3, 0x61, 0x62, 5]
    let pieces := delta.map fun byte => [byte]
    [delta].flatten = pieces.flatten ∧
      (∀ decoder c, Session.Opens ⟨0, [delta].flatten⟩ decoder c → decoder.version = .sdch →
        decoder.reader.table.Effective) ∧
      (decodeStream #[] {} {} [delta]).1 = .error (.format 15 (.targetWindowOverflow 4 3)) ∧
      decodeStream #[] {} {} [delta] = decodeStream #[] {} {} pieces := by
  intro delta pieces
  have same : [delta].flatten = pieces.flatten := by decide
  have parsed : TableStage.parseHeader ⟨0, [delta].flatten⟩ =
      .ok (some (⟨.sdch, none⟩, ⟨5, delta.drop 5⟩)) := by rfl
  have effective (decoder : WindowDecoder) (c : Cursor)
      (opens : Session.Opens ⟨0, [delta].flatten⟩ decoder c) (_ : decoder.version = .sdch) :
      decoder.reader.table.Effective := by
    cases opens with
    | standard header => exact CodeTable.effective_standard
    | table header =>
      rw [parsed] at header
      cases header
  have ends : (decodeStream #[] {} {} [delta]).1 =
      .error (.format 15 (.targetWindowOverflow 4 3)) := by decide +kernel
  refine ⟨same, effective, ends, decodeStream_pieces #[] {} {} same effective ?_⟩
  intro offset fault refused
  rw [ends] at refused
  cases refused

/-! ## Where pieces do make a difference -/

namespace Session

/-- A table that is refused is so where the call has taken it up. -/
theorem runTable_refused (session : Session) (sink : Sink) {c c' : Cursor} {version : Version}
    {sizes : CacheSizes} {stage whole : TableStage} {table : CodeTable} {fault : TableFault}
    (refused : table.validate sizes.maxMode = .error fault)
    (ran : stage.run c = .ok (whole, c')) (stored : whole.stored? = some table.toBytes) :
    session.runTable version sizes stage c sink =
      (.error (.format c.offset (.invalidCodeTable fault)), sink) := by
  have installed : install version sizes table.toBytes = .error fault := by
    simp only [install, CodeTable.ofBytes_toBytes]
    change (do table.validate sizes.maxMode; pure _) = _
    rw [refused]
    rfl
  simp only [runTable, ran, stored, installed]
  rfl

end Session

theorem decodeStream_refused (dictionary : Array UInt8) (config : DecoderConfig) (sink : Sink)
    (version : Version) {near same : UInt8} {sizes : CacheSizes} {table : CodeTable}
    {fault : TableFault} (checked : CacheSizes.check near.toNat same.toNat = .ok sizes)
    (refused : table.validate sizes.maxMode = .error fault) :
    let front := FileHeader.toBytes { version, cacheSizes := some (near, same) }
    let inner := FileHeader.toBytes { version := .standard, cacheSizes := none }
    ∃ window, table.toDelta = .ok (inner ++ window) ∧
      (decodeStream dictionary config sink [front ++ (inner ++ window)]).1 =
          .error (.format front.length (.invalidCodeTable fault)) ∧
        (decodeStream dictionary config sink [front ++ inner, window]).1 =
          .error (.format (front.length + inner.length) (.invalidCodeTable fault)) := by
  intro front inner
  obtain ⟨window, written, reads⟩ := TableStage.runWindows_toDelta table
  have parsed (rest : List UInt8) : (Session.start dictionary config).run ⟨0, front ++ rest⟩ sink =
      (Session.start dictionary config).runTable version sizes .header ⟨front.length, rest⟩ sink := by
    have parsed := TableStage.parseHeader_toBytes { version, cacheSizes := some (near, same) } 0 rest
    rw [Nat.zero_add] at parsed
    simp only [Session.start, Session.run, front, parsed, Session.afterHeader, checked]
  refine ⟨window, written, ?_, ?_⟩
  · obtain ⟨stage, ran, stored⟩ := TableStage.run_toDelta written front.length []
    rw [List.append_nil] at ran
    rw [decodeStream_singleton, parsed, Session.runTable_refused _ _ refused ran stored]
    rfl
  · generalize place : front.length + inner.length = n
    have stops : WindowRun.run CodeTable.standardBytes TableStage.config (some CodeTable.storedSize)
        ⟨n, []⟩ {} (.ofDecoder (.ofVersion .standard)) =
          (.ok (.ofDecoder (.ofVersion .standard), ⟨n, []⟩), {}) := WindowRun.run_stops (.inr rfl)
    have headed : TableStage.header.run ⟨front.length, inner⟩ =
        .ok (.windows (.ofDecoder (.ofVersion .standard)), ⟨n, []⟩) := by
      have parsed := TableStage.parseHeader_toBytes { version := .standard, cacheSizes := none }
        front.length []
      rw [List.append_nil, place] at parsed
      simp only [TableStage.run, inner, parsed, TableStage.runWindows, stops]
      rfl
    have first : (Session.start dictionary config).run ⟨0, front ++ inner⟩ sink =
        (.ok (⟨dictionary, config, .table version sizes
          (.windows (.ofDecoder (.ofVersion .standard)))⟩, ⟨n, []⟩), sink) := by
      rw [parsed, Session.runTable, headed]
      rfl
    obtain ⟨stage, ran, stored⟩ := reads n []
    rw [List.append_nil] at ran
    have second : Session.run ⟨dictionary, config, .table version sizes
        (.windows (.ofDecoder (.ofVersion .standard)))⟩ ⟨n, window⟩ sink =
          (.error (.format n (.invalidCodeTable fault)), sink) :=
      Session.runTable_refused ⟨dictionary, config, .header⟩ sink refused ran stored
    change ((StreamDecoder.ofSession (.start dictionary config)).decodePieces sink _).1 = _
    simp only [StreamDecoder.ofSession, StreamDecoder.decodePieces, StreamDecoder.feed,
      StreamDecoder.decodeChunk, List.nil_append, first, second]

/-- The standard table does not fit caches without NEAR and SAME modes, and is refused at the one
place or the other. And where opcode 2 stands for nothing, the instruction behind it is found to start
at opcode 2 or behind it. -/
theorem decodeStream_moves :
    let front := FileHeader.toBytes { version := .standard, cacheSizes := some (0, 0) }
    let inner := FileHeader.toBytes { version := .standard, cacheSizes := none }
    let table : CodeTable := ⟨CodeTable.standard.entries.set 2 (.one .noop)⟩
    let windows := StreamDecoder.ofSession (.ofDecoder #[] {}
      ((WindowDecoder.ofVersion .sdch).withTable table .standard))
    (∃ window, CodeTable.standard.toDelta = .ok (inner ++ window) ∧
      (decodeStream #[] {} {} [front ++ (inner ++ window)]).1 =
          .error (.format 7 (.invalidCodeTable (.modeTooLarge 51 2 1))) ∧
        (decodeStream #[] {} {} [front ++ inner, window]).1 =
          .error (.format 12 (.invalidCodeTable (.modeTooLarge 51 2 1)))) ∧
      table.validate CacheSizes.standard.maxMode = .ok () ∧
      (windows.decodePieces {} [[0, 7, 1, 0, 0, 2, 0, 2, 3]]).1 =
          .error (.format 7 (.targetWindowOverflow 2 1)) ∧
        (windows.decodePieces {} [[0, 7, 1, 0, 0, 2, 0, 2], [3]]).1 =
          .error (.format 8 (.targetWindowOverflow 2 1)) := by
  intro front inner table windows
  have checked : CacheSizes.check (0 : UInt8).toNat (0 : UInt8).toNat = .ok ⟨0, 0, by decide⟩ := by
    decide
  have refused : CodeTable.standard.validate (CacheSizes.mk 0 0 (by decide)).maxMode =
      .error (.modeTooLarge 51 2 1) := by decide +kernel
  exact ⟨decodeStream_refused #[] {} {} .standard checked refused, by decide +kernel, by decide +kernel,
    by decide +kernel⟩

end DeltaCoding
