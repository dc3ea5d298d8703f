import DeltaCoding.Proofs.Decoder.Safety
import DeltaCoding.Proofs.Window.Cutting

/-!
# Deltas in pieces

What a decoding session writes and how it ends depend on the bytes of the delta and not on the pieces
that they come in. A session that has taken one piece and then takes another comes to the same as one
that takes both at once; this is shown for runs of windows, for the delta of a code table and for
whole sessions in turn, and carried over to any number of pieces by induction.

Sessions that have come to the same need not be equal, since a body that waits for more input may
have got further in one of them. `WindowRun.Agree` and its like say what is the same all the same.
-/

namespace DeltaCoding

namespace WindowRun

variable {dictionary : Array UInt8} {config : DecoderConfig} {stopAt : Option Nat} {c : Cursor}
  {sink : Sink}

/-- What a run makes of a window. -/
def proceed (dictionary : Array UInt8) (config : DecoderConfig) (stopAt : Option Nat) (sink : Sink)
    (total : Nat) (progress : WindowProgress) : Except DecodeError (WindowRun × Cursor) × Sink :=
  match progress.outcome with
  | .error error => (.error error, sink)
  | .ok .needMoreData => (.ok (⟨progress.decoder, progress.target, total⟩, progress.cursor), sink)
  | .ok (.complete start stop) =>
    if progress.target.size < stop ∨ stop < start then (.error .breach, sink)
    else
      match sink.write (progress.target.extract start stop) with
      | (false, sink) => (.error .sinkFull, sink)
      | (true, sink) =>
        run dictionary config stopAt progress.cursor sink
          ⟨progress.decoder, if config.allowTarget then progress.target else #[],
            total + (stop - start)⟩

theorem run_stops {start : WindowRun} (stops : stopAt = some start.total ∨ c.isEmpty = true) :
    run dictionary config stopAt c sink start = (.ok (start, c), sink) := by
  obtain ⟨decoder, target, total⟩ := start
  rw [run, if_pos stops]

theorem run_goes (start : WindowRun) (goes : ¬ (stopAt = some start.total ∨ c.isEmpty = true)) :
    run dictionary config stopAt c sink start = proceed dictionary config stopAt sink start.total
      (start.decoder.decode ⟨dictionary, config, start.total⟩ c start.target) := by
  obtain ⟨decoder, target, total⟩ := start
  rw [run, if_neg goes]
  simp only [proceed]
  generalize WindowDecoder.decode decoder _ c target = progress
  obtain ⟨outcome, decoder', c', target'⟩ := progress
  rcases outcome with error | status
  · rfl
  · cases status <;> rfl

/-! ## Agreement -/

/-- Two results that are the same but for the place of an error, and for how far a window has got
that waits for more input. -/
def Agree (stopAt : Option Nat) :
    (p q : Except DecodeError (WindowRun × Cursor) × Sink) → Prop
  | (.error e, sink), (.error e', sink') => e.unlocated = e'.unlocated ∧ sink = sink'
  | (.ok (r, c), sink), (.ok (r', c'), sink') =>
    sink = sink' ∧ r.total = r'.total ∧ r.decoder.inWindow = r'.decoder.inWindow ∧
      (r.decoder.inWindow = false ∨ stopAt = some r.total → r.target = r'.target ∧ c = c')
  | _, _ => False

theorem Agree.refl (stopAt : Option Nat) (p : Except DecodeError (WindowRun × Cursor) × Sink) :
    Agree stopAt p p := by
  obtain ⟨outcome, sink⟩ := p
  cases outcome with
  | error e => exact ⟨rfl, rfl⟩
  | ok p => exact ⟨rfl, rfl, rfl, fun _ => ⟨rfl, rfl⟩⟩

theorem agree_sameStart {d e : WindowDecoder} (same : d.SameStart e) (target : Array UInt8)
    (total : Nat) : Agree stopAt (run dictionary config stopAt c sink ⟨d, target, total⟩)
      (run dictionary config stopAt c sink ⟨e, target, total⟩) := by
  by_cases stops : stopAt = some total ∨ c.isEmpty = true
  · rw [run_stops stops, run_stops stops]
    exact ⟨rfl, rfl, same.inWindow, fun _ => ⟨rfl, rfl⟩⟩
  · rw [run_goes _ stops, run_goes _ stops]
    simp only
    rcases WindowDecoder.decode_sameStart same ⟨dictionary, config, total⟩ c target with
      equal | ⟨outcome, incomplete, left, right⟩
    · rw [equal]
      exact .refl _ _
    · rw [left, right]
      rcases outcome with error | status
      · exact ⟨rfl, rfl⟩
      · cases status with
        | needMoreData => exact ⟨rfl, rfl, same.inWindow, fun _ => ⟨rfl, rfl⟩⟩
        | complete start stop => exact absurd rfl (incomplete start stop)

theorem agree_proceed {p q : WindowProgress} {total : Nat} (alike : p.Alike q)
    (goes : stopAt ≠ some total) : Agree stopAt (proceed dictionary config stopAt sink total p)
      (proceed dictionary config stopAt sink total q) := by
  cases alike.ends with
  | failed same => exact ⟨same, rfl⟩
  | waits inWindow place =>
    refine ⟨rfl, rfl, inWindow, fun done => ?_⟩
    -- A run that is to stop here would not have looked at the window.
    obtain ⟨cursors, targets⟩ := place (done.resolve_right goes)
    exact ⟨targets, cursors⟩
  | complete same =>
    simp only [proceed]
    split
    · exact .refl _ _
    · split
      · exact .refl _ _
      · exact agree_sameStart same _ _

/-! ## Two pieces -/

/-- A run that has failed would have failed on all of the input. One that goes on with more input
comes to the same as if it had had all of it at once. -/
def Splits (dictionary : Array UInt8) (config : DecoderConfig) (stopAt : Option Nat)
    (more : List UInt8) (first whole : Except DecodeError (WindowRun × Cursor) × Sink) : Prop :=
  match first with
  | (.error _, _) => whole = first
  | (.ok (next, c), sink) =>
    Agree stopAt whole (run dictionary config stopAt (c.extend more) sink next)

theorem goes_extend {total : Nat} (goes : ¬ (stopAt = some total ∨ c.isEmpty = true))
    (more : List UInt8) : ¬ (stopAt = some total ∨ (c.extend more).isEmpty = true) := by
  obtain ⟨offset, rest⟩ := c
  cases rest with
  | nil => exact absurd (.inr rfl) goes
  | cons byte rest => exact fun stops => goes (stops.imp_right (fun h => by cases h))

theorem nil_of_isEmpty_extend {more : List UInt8} (h : (c.extend more).isEmpty = true) :
    more = [] := by
  simp only [Cursor.isEmpty, Cursor.extend_rest, List.isEmpty_iff, List.append_eq_nil_iff] at h
  exact h.2

theorem run_extend {start : WindowRun} (ready : start.Ready dictionary config)
    (goes : ¬ (stopAt = some start.total ∨ c.isEmpty = true)) {progress : WindowProgress}
    (decoded : start.decoder.decode ⟨dictionary, config, start.total⟩ c start.target = progress)
    (final : progress.outcome ≠ .ok .needMoreData) (more : List UInt8) :
    run dictionary config stopAt (c.extend more) sink start = proceed dictionary config stopAt sink
      start.total { progress with cursor := progress.cursor.extend more } := by
  subst decoded
  rw [run_goes start (goes_extend goes more), WindowDecoder.decode_extend ready.ready final more]

theorem run_split {start : WindowRun} (ready : start.Ready dictionary config)
    (more : List UInt8) :
    Splits dictionary config stopAt more (run dictionary config stopAt c sink start)
      (run dictionary config stopAt (c.extend more) sink start) := by
  -- Along the run over the first piece. A window that is complete within it is the same at once,
  -- and one that is not goes on with the second piece.
  fun_induction run dictionary config stopAt c sink start with
  | case1 c sink decoder target total stops => exact .refl _ _
  | case2 c sink decoder target total goes progress error failed =>
    rw [run_extend ready goes (show _ = progress from rfl) (by rw [failed]; intro h; cases h)]
    simp only [Splits, proceed, failed]
  | case3 c sink decoder target total goes progress stalled =>
    have decoded : decoder.decode ⟨dictionary, config, total⟩ c target = progress := rfl
    have alike := WindowDecoder.decode_resume ready.ready stalled more
    have stop : stopAt ≠ some total := fun stop => goes (.inl stop)
    simp only [Splits]
    -- A run with nothing to read does not call its decoder again, not even for a body that has
    -- stalled.
    by_cases none : (progress.cursor.extend more).isEmpty = true
    · have nothing := nil_of_isEmpty_extend none
      subst nothing
      rw [run_goes _ (goes_extend goes []), run_stops (.inr none)]
      simp only [Cursor.extend_nil, decoded, proceed, stalled]
      exact .refl _ _
    · rw [run_goes _ (goes_extend goes more), run_goes _ (by simp [stop, none])]
      exact agree_proceed alike stop
  | case4 c sink decoder target total goes progress start stop complete outside =>
    rw [run_extend ready goes (show _ = progress from rfl) (by rw [complete]; intro h; cases h)]
    simp only [Splits, proceed, complete, if_pos outside]
  | case5 c sink decoder target total goes progress start stop complete inside sink' full =>
    rw [run_extend ready goes (show _ = progress from rfl) (by rw [complete]; intro h; cases h)]
    simp only [Splits, proceed, complete, if_neg inside, full]
  | case6 c sink decoder target total goes progress start stop complete inside sink' written ih =>
    have sound := WindowDecoder.sound_decode ready.ready c
    simp only [dite_eq_ite] at ih
    rw [run_extend ready goes (show _ = progress from rfl) (by rw [complete]; intro h; cases h)]
    simp only [proceed, complete, if_neg inside, written]
    exact ih (ready_next sound complete)

/-! ## Sinks without a capacity -/

theorem capacity_write {sink sink' : Sink} {bytes : Array UInt8} {fits : Bool}
    (h : sink.write bytes = (fits, sink')) : sink'.capacity = sink.capacity := by
  simp only [Sink.write] at h
  split at h <;> cases h <;> rfl

theorem write_unbounded {sink : Sink} (unbounded : sink.capacity = none) (bytes : Array UInt8) :
    sink.write bytes = (true, { sink with written := sink.written ++ bytes }) := by
  simp only [Sink.write, Sink.hasRoom, unbounded]
  rfl

theorem capacity_run (start : WindowRun) :
    (run dictionary config stopAt c sink start).2.capacity = sink.capacity := by
  fun_induction run dictionary config stopAt c sink start with
  | case1 => rfl
  | case2 => rfl
  | case3 => rfl
  | case4 => rfl
  | case5 c sink decoder target total goes progress start stop complete inside sink' full =>
    exact capacity_write full
  | case6 c sink decoder target total goes progress start stop complete inside sink' written ih =>
    exact ih.trans (capacity_write written)

/-- What such a sink holds already is of no account. -/
theorem run_unbounded (start : WindowRun) (unbounded : sink.capacity = none) :
    ∀ sink' : Sink, sink'.capacity = none → (run dictionary config stopAt c sink start).1 =
      (run dictionary config stopAt c sink' start).1 := by
  fun_induction run dictionary config stopAt c sink start with
  | case1 c sink decoder target total stops =>
    intro sink' _
    rw [run_stops stops]
  | case2 c sink decoder target total goes progress error failed =>
    intro sink' _
    rw [run_goes _ goes, show WindowDecoder.decode _ _ _ _ = progress from rfl]
    simp only [proceed, failed]
  | case3 c sink decoder target total goes progress stalled =>
    intro sink' _
    rw [run_goes _ goes, show WindowDecoder.decode _ _ _ _ = progress from rfl]
    simp only [proceed, stalled]
  | case4 c sink decoder target total goes progress start stop complete outside =>
    intro sink' _
    rw [run_goes _ goes, show WindowDecoder.decode _ _ _ _ = progress from rfl]
    simp only [proceed, complete, if_pos outside]
  | case5 c sink decoder target total goes progress start stop complete inside sink₁ full =>
    rw [write_unbounded unbounded] at full
    cases full
  | case6 c sink decoder target total goes progress start stop complete inside sink₁ written ih =>
    intro sink' unbounded'
    simp only [dite_eq_ite] at ih
    rw [run_goes ⟨decoder, target, total⟩ goes,
      show WindowDecoder.decode _ _ _ _ = progress from rfl]
    simp only [proceed, complete, if_neg inside, write_unbounded unbounded']
    exact ih ((capacity_write written).trans unbounded) _ unbounded'

end WindowRun

/-! ## The delta of a code table -/

namespace TableStage

variable {c behind : Cursor} {header : FileHeader} {stage : TableStage}

theorem parseHeader_extend_error {error : DecodeError} (h : parseHeader c = .error error)
    (more : List UInt8) : parseHeader (c.extend more) = .error error := by
  simp only [parseHeader] at h
  split at h
  · cases h
  · cases h
  · next parsed =>
    cases h
    simp only [parseHeader, FileHeader.local_parse.extend_error parsed (fun h => by cases h)]
    rfl
  · next parsed => exact absurd parsed (FileHeader.answers_parse c)

theorem parseHeader_extend (h : parseHeader c = .ok (some (header, behind)))
    (more : List UInt8) :
    parseHeader (c.extend more) = .ok (some (header, behind.extend more)) := by
  simp only [parseHeader] at h
  split at h
  · next parsed =>
    cases h
    simp only [parseHeader, FileHeader.local_parse.extend_ok parsed]
  · cases h
  · cases h
  · cases h

/-- Two results that are the same but for the place of an error, and for how far the delta has got
if the table is not complete yet. -/
def Agree : (p q : Except DecodeError (TableStage × Cursor)) → Prop
  | .error e, .error e' => e.unlocated = e'.unlocated
  | .ok (s, c), .ok (s', c') => s.stored? = s'.stored? ∧ (s.stored?.isSome = true → c = c')
  | _, _ => False

theorem Agree.refl (p : Except DecodeError (TableStage × Cursor)) : Agree p p := by
  cases p with
  | error e => exact rfl
  | ok p => exact ⟨rfl, fun _ => rfl⟩

theorem total_of_stored {run : WindowRun} (ready : run.Ready CodeTable.standardBytes config)
    (h : (stored? (.windows run)).isSome = true) : some CodeTable.storedSize = some run.total := by
  simp only [stored?] at h
  split at h
  · cases h
  · next enough =>
    -- It cannot be further, since the size of the table is also the planned size of the target.
    have planned := ready.planned CodeTable.storedSize rfl
    rw [Nat.le_antisymm planned (Nat.le_of_not_lt enough)]

/-- A table's delta in two pieces. -/
def Splits (more : List UInt8) (first whole : Except DecodeError (TableStage × Cursor)) : Prop :=
  match first with
  | .error _ => whole = first
  | .ok (next, c) => Agree whole (next.run (c.extend more))

theorem agree_runWindows {run : WindowRun} {c' : Cursor} {sink : Sink}
    (ready : run.Ready CodeTable.standardBytes config) (c : Cursor) (next : WindowRun)
    (agree : WindowRun.Agree (some CodeTable.storedSize)
      (run.run CodeTable.standardBytes config (some CodeTable.storedSize) c {})
      (next.run CodeTable.standardBytes config (some CodeTable.storedSize) c' sink))
    (unbounded : sink.capacity = none) : Agree (runWindows run c) (runWindows next c') := by
  have sound := WindowRun.sound_run ready (some CodeTable.storedSize) c {}
  simp only [runWindows]
  rw [← WindowRun.run_unbounded next unbounded {} rfl]
  generalize next.run _ _ _ c' _ = second at *
  generalize run.run _ _ _ c _ = first at *
  obtain ⟨outcome, sink₁⟩ := first
  obtain ⟨outcome', sink₂⟩ := second
  rcases outcome with error | p
  · rcases outcome' with error' | p'
    · exact agree.1
    · exact agree.elim
  · rcases outcome' with error' | p'
    · exact agree.elim
    · obtain ⟨run₁, c₁⟩ := p
      obtain ⟨run₂, c₂⟩ := p'
      obtain ⟨-, total, -, same⟩ := agree
      have stops : (stored? (.windows run₁)).isSome = true → run₁.target = run₂.target ∧ c₁ = c₂ :=
        fun stored => same (.inr (total_of_stored sound.1 stored))
      refine ⟨?_, fun stored => (stops stored).2⟩
      by_cases short : run₁.total < CodeTable.storedSize
      · simp only [stored?, ← total, if_pos short]
      · simp only [stored?, if_neg short] at stops
        simp only [stored?, ← total, if_neg short, (stops rfl).1]

theorem split_runWindows {run : WindowRun} (ready : run.Ready CodeTable.standardBytes config)
    (c : Cursor) (more : List UInt8) :
    Splits more (runWindows run c) (runWindows run (c.extend more)) := by
  have split := @WindowRun.run_split _ _ (some CodeTable.storedSize) c {} run ready more
  have capacity := @WindowRun.capacity_run CodeTable.standardBytes config
    (some CodeTable.storedSize) c {} run
  cases first : run.run CodeTable.standardBytes config (some CodeTable.storedSize) c {} with
  | mk outcome sink =>
    rw [first] at split capacity
    cases outcome with
    | error error =>
      simp only [WindowRun.Splits] at split
      simp only [Splits, runWindows, first, split]
    | ok p =>
      simp only [runWindows, first]
      exact agree_runWindows ready _ _ split capacity

theorem split_run {stage : TableStage} (ready : stage.Ready) (c : Cursor) (more : List UInt8) :
    Splits more (stage.run c) (stage.run (c.extend more)) := by
  cases stage with
  | windows run => exact split_runWindows ready c more
  | header =>
    cases parsed : parseHeader c with
    | error error => simp only [Splits, run, parsed, parseHeader_extend_error parsed]
    | ok parse =>
      cases parse with
      | none =>
        simp only [run, parsed]
        exact .refl _
      | some p =>
        obtain ⟨fileHeader, behind⟩ := p
        simp only [run, parsed, parseHeader_extend parsed]
        cases fileHeader.cacheSizes.isSome with
        | true => exact rfl
        | false =>
          have valid : (WindowDecoder.ofVersion fileHeader.version).Valid := CodeTable.valid_standard
          exact split_runWindows (WindowRun.ready_ofDecoder valid rfl) behind more

theorem run_stored (ready : stage.Ready) {stored : Array UInt8}
    (h : stage.stored? = some stored) (c : Cursor) : stage.run c = .ok (stage, c) := by
  cases stage with
  | header => cases h
  | windows run =>
    have total := total_of_stored ready (by rw [h]; rfl)
    simp only [TableStage.run, runWindows, WindowRun.run_stops (.inl total)]

end TableStage

/-! ## Whole deltas -/

namespace Session

variable {session : Session} {sink : Sink} {c : Cursor}

/-- Two results that are the same but for the place of an error, and for how far the session has got
if the delta may not end there. -/
def Agree : (p q : Except DecodeError (Session × Cursor) × Sink) → Prop
  | (.error e, sink), (.error e', sink') => e.unlocated = e'.unlocated ∧ sink = sink'
  | (.ok (s, c), sink), (.ok (s', c'), sink') =>
    sink = sink' ∧ s.isComplete = s'.isComplete ∧ (s.isComplete = true → c = c')
  | _, _ => False

theorem Agree.refl (p : Except DecodeError (Session × Cursor) × Sink) : Agree p p := by
  obtain ⟨outcome, sink⟩ := p
  cases outcome with
  | error e => exact ⟨rfl, rfl⟩
  | ok p => exact ⟨rfl, rfl, fun _ => rfl⟩

/-- A delta in two pieces. -/
def Splits (more : List UInt8) (first whole : Except DecodeError (Session × Cursor) × Sink) : Prop :=
  match first with
  | (.error _, _) => whole = first
  | (.ok (next, c), sink) => Agree whole (next.run (c.extend more) sink)

theorem agree_runWindows {run next : WindowRun} {c' : Cursor} {sink' : Sink}
    (agree : WindowRun.Agree none (run.run session.dictionary session.config none c sink)
      (next.run session.dictionary session.config none c' sink')) :
    Agree (session.runWindows run c sink) (session.runWindows next c' sink') := by
  simp only [runWindows]
  generalize run.run _ _ _ c _ = first at *
  generalize next.run _ _ _ c' _ = second at *
  obtain ⟨outcome, sink₁⟩ := first
  obtain ⟨outcome', sink₂⟩ := second
  rcases outcome with error | ⟨run₁, c₁⟩
  · rcases outcome' with error' | p'
    · exact agree
    · exact agree.elim
  · rcases outcome' with error' | ⟨run₂, c₂⟩
    · exact agree.elim
    · obtain ⟨sinks, -, inWindow, same⟩ := agree
      refine ⟨sinks, congrArg Bool.not inWindow, fun complete => (same (.inl ?_)).2⟩
      simpa [isComplete] using complete

theorem split_runWindows {run : WindowRun} (ready : run.Ready session.dictionary session.config)
    (c : Cursor) (sink : Sink) (more : List UInt8) :
    Splits more (session.runWindows run c sink) (session.runWindows run (c.extend more) sink) := by
  have split := @WindowRun.run_split _ _ none c sink run ready more
  cases first : run.run session.dictionary session.config none c sink with
  | mk outcome sink' =>
    rw [first] at split
    cases outcome with
    | error error =>
      simp only [WindowRun.Splits] at split
      simp only [Splits, runWindows, first, split]
    | ok p =>
      simp only [runWindows, first]
      exact agree_runWindows split

theorem agree_runTable {stage next : TableStage} {c' : Cursor} (version : Version)
    (sizes : CacheSizes) (agree : TableStage.Agree (stage.run c) (next.run c')) :
    Agree (session.runTable version sizes stage c sink)
      (session.runTable version sizes next c' sink) := by
  simp only [runTable]
  generalize stage.run c = first at *
  generalize next.run c' = second at *
  rcases first with error | ⟨stage₁, c₁⟩
  · rcases second with error' | p'
    · exact ⟨agree, rfl⟩
    · exact agree.elim
  · rcases second with error' | ⟨stage₂, c₂⟩
    · exact agree.elim
    · obtain ⟨stored, same⟩ := agree
      simp only [← stored]
      cases complete : stage₁.stored? with
      | none => exact ⟨rfl, rfl, fun h => by cases h⟩
      | some bytes =>
        obtain rfl := same (by rw [complete]; rfl)
        simp only
        split
        · exact ⟨DecodeError.unlocated_locate _ _ _, rfl⟩
        · exact .refl _

theorem split_runTable {version : Version} {sizes : CacheSizes} {stage : TableStage}
    (ready : stage.Ready) (c : Cursor) (sink : Sink) (more : List UInt8) :
    Splits more (session.runTable version sizes stage c sink)
      (session.runTable version sizes stage (c.extend more) sink) := by
  have split := TableStage.split_run ready c more
  have sound := TableStage.sound_run ready c
  cases first : stage.run c with
  | error error =>
    rw [first] at split
    simp only [TableStage.Splits] at split
    simp only [Splits, runTable, first, split]
  | ok p =>
    obtain ⟨next, behind⟩ := p
    rw [first] at split sound
    simp only [TableStage.Splits] at split
    cases complete : next.stored? with
    | none =>
      have waits : session.runTable version sizes stage c sink =
          (.ok ({ session with stage := .table version sizes next }, behind), sink) := by
        simp only [runTable, first, complete]
      rw [waits]
      exact @agree_runTable session sink _ _ _ _ version sizes split
    | some stored =>
      rw [TableStage.run_stored sound.1 complete] at split
      cases whole : stage.run (c.extend more) with
      | error error =>
        rw [whole] at split
        exact split.elim
      | ok p =>
        obtain ⟨last, behind'⟩ := p
        rw [whole] at split
        obtain ⟨stored', same⟩ := split
        obtain rfl := same (by rw [stored', complete]; rfl)
        simp only [runTable, first, whole, stored', complete]
        cases installed : install version sizes stored with
        | error fault => exact rfl
        | ok decoder =>
          obtain ⟨valid, phase⟩ := valid_install installed
          exact split_runWindows (WindowRun.ready_ofDecoder valid phase) behind sink more

theorem split_afterHeader (header : FileHeader) (headerOffset : Nat) (c : Cursor) (sink : Sink)
    (more : List UInt8) : Splits more (session.afterHeader header headerOffset c sink)
      (session.afterHeader header headerOffset (c.extend more) sink) := by
  simp only [afterHeader]
  split
  · have valid : (WindowDecoder.ofVersion header.version).Valid := CodeTable.valid_standard
    exact split_runWindows (WindowRun.ready_ofDecoder valid rfl) c sink more
  · split
    · exact rfl
    · have ready : TableStage.header.Ready := trivial
      exact split_runTable ready c sink more

/-- A session that has failed would have failed on all of the input. One that goes on with more
input comes to the same as if it had had all of it at once. -/
theorem split_run (ready : session.Ready) (c : Cursor) (sink : Sink) (more : List UInt8) :
    Splits more (session.run c sink) (session.run (c.extend more) sink) := by
  obtain ⟨dictionary, config, stage⟩ := session
  cases stage with
  | windows run => exact @split_runWindows ⟨dictionary, config, .header⟩ run ready c sink more
  | table version sizes stage =>
    exact @split_runTable ⟨dictionary, config, .header⟩ version sizes stage ready c sink more
  | header =>
    cases parsed : TableStage.parseHeader c with
    | error error =>
      simp only [Splits, run, parsed, TableStage.parseHeader_extend_error parsed]
    | ok parse =>
      cases parse with
      | none =>
        simp only [run, parsed]
        exact .refl _
      | some p =>
        obtain ⟨header, behind⟩ := p
        simp only [run, parsed, TableStage.parseHeader_extend parsed]
        exact split_afterHeader header c.offset behind sink more

end Session

/-! ## Streams -/

namespace StreamDecoder

variable {config : DecoderConfig} {sink : Sink}

/-- Two results of whole sessions that are the same but for the place of an error. -/
def Agree (p q : Except DecodeError Unit × Sink) : Prop :=
  p.2 = q.2 ∧ p.1.mapError DecodeError.unlocated = q.1.mapError DecodeError.unlocated

theorem Agree.refl (p : Except DecodeError Unit × Sink) : Agree p p :=
  ⟨rfl, rfl⟩

theorem Agree.symm {p q : Except DecodeError Unit × Sink} (h : Agree p q) : Agree q p :=
  ⟨h.1.symm, h.2.symm⟩

theorem Agree.trans {p q r : Except DecodeError Unit × Sink} (h : Agree p q) (h' : Agree q r) :
    Agree p r :=
  ⟨h.1.trans h'.1, h.2.trans h'.2⟩

/-- Ends the session behind its last piece. -/
def conclude (config : DecoderConfig) :
    Except DecodeError (Session × Cursor) × Sink → Except DecodeError Unit × Sink
  | (.error error, sink) => (.error error, sink)
  | (.ok (session, c), sink) => ((finish ⟨config, some session, c.rest, c.offset⟩).1, sink)

theorem decodePieces_last (session : Session) (pending : List UInt8) (offset : Nat)
    (piece : List UInt8) :
    decodePieces ⟨config, some session, pending, offset⟩ sink [piece] =
      conclude config (session.run ⟨offset, pending ++ piece⟩ sink) := by
  simp only [decodePieces, feed, decodeChunk]
  rcases session.run ⟨offset, pending ++ piece⟩ sink with ⟨error | ⟨next, c⟩, sink'⟩ <;> rfl

theorem agree_conclude {p q : Except DecodeError (Session × Cursor) × Sink}
    (agree : Session.Agree p q) : Agree (conclude config p) (conclude config q) := by
  obtain ⟨outcome, sink⟩ := p
  obtain ⟨outcome', sink'⟩ := q
  rcases outcome with error | ⟨s, c⟩
  · rcases outcome' with error' | p'
    · exact ⟨agree.2, congrArg Except.error agree.1⟩
    · exact agree.elim
  · rcases outcome' with error' | ⟨s', c'⟩
    · exact agree.elim
    · obtain ⟨sinks, complete, same⟩ := agree
      refine ⟨sinks, ?_⟩
      cases ends : s.isComplete with
      | true =>
        obtain rfl := same ends
        simp only [conclude, finish, ends, ← complete]
      | false =>
        simp only [conclude, finish, ends, ← complete, Bool.and_false]
        rfl

theorem agree_flatten {d : StreamDecoder} (ready : d.Ready config) (sink : Sink)
    (piece : List UInt8) (rest : List (List UInt8)) :
    Agree (d.decodePieces sink (piece :: rest)) (d.decodePieces sink [piece ++ rest.flatten]) := by
  -- By the pieces after the first one. The session that has taken a piece takes the rest as one
  -- piece.
  induction rest generalizing d sink piece with
  | nil =>
    rw [List.flatten_nil, List.append_nil]
    exact .refl _
  | cons next rest ih =>
    have sound := sound_decodeChunk ready piece sink
    obtain ⟨config', session, pending, offset⟩ := d
    obtain ⟨session, rfl, readySession, -⟩ := ready
    have split := Session.split_run readySession ⟨offset, pending ++ piece⟩ sink
      (next ++ rest.flatten)
    simp only [Cursor.extend, List.append_assoc] at split
    rw [decodePieces_last, List.flatten_cons]
    simp only [decodePieces, feed, decodeChunk] at sound ⊢
    rcases first : session.run ⟨offset, pending ++ piece⟩ sink with ⟨error | ⟨after, c⟩, sink'⟩
    · rw [first] at split
      simp only [Session.Splits] at split
      rw [split]
      exact .refl _
    · rw [first] at split sound
      simp only [Session.Splits] at split
      have later := ih sound.1 sink' next
      rw [decodePieces_last] at later
      exact later.trans (agree_conclude split).symm

end StreamDecoder

/-- What a session writes and how it ends depend on the bytes of the delta alone. Two ways of cutting
them into pieces make no difference but to the place at which an error is reported. -/
theorem decodeStream_chunking (dictionary : Array UInt8) (config : DecoderConfig) (sink : Sink)
    {pieces pieces' : List (List UInt8)} (same : pieces.flatten = pieces'.flatten) :
    (decodeStream dictionary config sink pieces).2 =
        (decodeStream dictionary config sink pieces').2 ∧
      (decodeStream dictionary config sink pieces).1.mapError DecodeError.unlocated =
        (decodeStream dictionary config sink pieces').1.mapError DecodeError.unlocated := by
  have whole (pieces : List (List UInt8)) : StreamDecoder.Agree
      (decodeStream dictionary config sink pieces)
      (decodeStream dictionary config sink [pieces.flatten]) := by
    cases pieces with
    | nil => exact .refl _
    | cons piece rest =>
      exact StreamDecoder.agree_flatten (StreamDecoder.ready_start dictionary config) sink piece rest
  have left := whole pieces
  rw [same] at left
  exact left.trans (whole pieces').symm

theorem decodeStream_chunking_bytewise :
    let delta : List UInt8 :=
      [0xD6, 0xC3, 0xC4, 0, 0, 0, 9, 3, 0, 3, 1, 0, 0x61, 0x62, 0x63, 4]
    [delta].flatten = (delta.map fun byte => [byte]).flatten ∧
      (decodeStream #[] {} {} [delta]).2 =
          (decodeStream #[] {} {} (delta.map fun byte => [byte])).2 ∧
        (decodeStream #[] {} {} [delta]).1.mapError DecodeError.unlocated =
          (decodeStream #[] {} {} (delta.map fun byte => [byte])).1.mapError
            DecodeError.unlocated :=
  ⟨by decide, decodeStream_chunking #[] {} {} (by decide)⟩

end DeltaCoding
