import DeltaCoding.Proofs.Decoder.Opening
import DeltaCoding.Proofs.Decoder.Verdict
import DeltaCoding.Proofs.Window.Completion

/-!
# Deltas that are cut short

`WindowRun.Windows` says which windows a delta consists of, and where in the stream they end. What a
decoder makes of the first bytes of a delta follows from the windows of the whole: those that lie
within these bytes are decoded, and the next one waits for more (`WindowRun.Windows.cut`).
-/

namespace DeltaCoding

/-- A window of a delta. -/
structure PlacedWindow where
  /-- The stream offset behind its last byte. -/
  stop : Nat
  /-- Its part of the target. -/
  output : Array UInt8

/-- What windows make of the target. -/
def outputs : List PlacedWindow → Array UInt8
  | [] => #[]
  | window :: windows => window.output ++ outputs windows

namespace WindowRun

/-- Windows come one after the other, from a run and its place in the stream up to another. They end
where a run that is to stop at a size of the target stops. -/
inductive Windows (dictionary : Array UInt8) (config : DecoderConfig) (stopAt : Option Nat) :
    WindowRun → Cursor → List PlacedWindow → WindowRun → Cursor → Prop where
  | nil (run : WindowRun) (c : Cursor) : Windows dictionary config stopAt run c [] run c
  | cons {start last : WindowRun} {c c' : Cursor} {windows : List PlacedWindow} {low high : Nat}
      {progress : WindowProgress} (goes : ¬ (stopAt = some start.total ∨ c.isEmpty = true))
      (decoded : start.decoder.decode ⟨dictionary, config, start.total⟩ c start.target = progress)
      (complete : progress.outcome = .ok (.complete low high))
      (others : Windows dictionary config stopAt (start.next config progress low high)
        progress.cursor windows last c') :
      Windows dictionary config stopAt start c
        (⟨progress.cursor.offset, progress.target.extract low high⟩ :: windows) last c'

variable {dictionary : Array UInt8} {config : DecoderConfig} {stopAt : Option Nat}
  {start last : WindowRun} {c c' : Cursor} {windows : List PlacedWindow} {sink : Sink}

namespace Windows

theorem reaches (h : Windows dictionary config stopAt start c windows last c') : c.Reaches c' := by
  induction h with
  | nil => exact .refl _
  | cons goes decoded complete others ih =>
    subst decoded
    exact (WindowDecoder.reaches_decode _ _ _ _).trans ih

theorem stops (between : start.Between dictionary config)
    (h : Windows dictionary config stopAt start c windows last c') :
    ∀ window ∈ windows, c.offset < window.stop ∧ window.stop ≤ c'.offset := by
  induction h with
  | nil => intro window mem; cases mem
  | @cons start last c c' windows low high progress goes decoded complete others ih =>
    obtain ⟨next, -⟩ := between.next decoded complete
    subst decoded
    have work := WindowDecoder.workBound_decode complete
    have ends := (WindowDecoder.reaches_decode start.decoder ⟨dictionary, config, start.total⟩ c
      start.target).offset_add_length
    have outside : (start.next config _ low high).decoder.inWindow = false := next.inWindow
    simp only [WindowRun.next] at outside
    simp only [WindowDecoder.workBound, between.inWindow, outside] at work
    have behind := others.reaches.offset_le
    intro window mem
    rcases List.mem_cons.1 mem with rfl | mem
    · simp only
      omega
    · have later := ih next window mem
      omega

theorem ends (h : Windows dictionary config stopAt start c windows last c') :
    (c' = c ∧ windows = []) ∨ ∃ window ∈ windows, window.stop = c'.offset := by
  induction h with
  | nil => exact .inl ⟨rfl, rfl⟩
  | cons goes decoded complete others ih =>
    right
    rcases ih with ⟨rfl, rfl⟩ | ⟨window, mem, stop⟩
    · exact ⟨_, List.mem_cons_self, rfl⟩
    · exact ⟨window, List.mem_cons_of_mem _ mem, stop⟩

theorem between (between : start.Between dictionary config)
    (h : Windows dictionary config stopAt start c windows last c') :
    last.Between dictionary config := by
  induction h with
  | nil => exact between
  | cons goes decoded complete others ih => exact ih (between.next decoded complete).1

theorem run (between : start.Between dictionary config)
    (h : Windows dictionary config stopAt start c windows last c') (sink : Sink)
    (unbounded : sink.capacity = none) :
    WindowRun.run dictionary config stopAt c sink start = WindowRun.run dictionary config stopAt c'
      { sink with written := sink.written ++ outputs windows } last := by
  induction h generalizing sink with
  | nil => rw [outputs, Array.append_empty]
  | cons goes decoded complete others ih =>
    obtain ⟨next, inside⟩ := between.next decoded complete
    rw [run_goes _ goes, decoded]
    simp only [proceed, complete, if_neg inside, write_unbounded unbounded]
    refine (ih next _ ?_).trans ?_
    · exact unbounded
    · rw [outputs, Array.append_assoc]

end Windows

theorem windows_of_run (between : start.Between dictionary config) {sink' : Sink}
    (ran : run dictionary config stopAt c sink start = (.ok (last, c'), sink'))
    (through : stopAt = some last.total ∨ last.decoder.inWindow = false ∧ c'.rest = []) :
    ∃ windows, Windows dictionary config stopAt start c windows last c' := by
  fun_induction run dictionary config stopAt c sink start with
  | case1 => cases ran; exact ⟨[], .nil _ _⟩
  | case2 => cases ran
  | case3 c sink decoder target total goes progress stalled =>
    cases ran
    rcases through with stops | ⟨outside, empty⟩
    · exact absurd (.inl stops) goes
    · have kept := WindowDecoder.cursor_waits between.phase stalled outside
      refine absurd (.inr ?_) goes
      rw [← kept, Cursor.isEmpty, empty]
      rfl
  | case4 => cases ran
  | case5 => cases ran
  | case6 c sink decoder target total goes progress low high complete inside sink' written ih =>
    have next := (between.next rfl complete).1
    obtain ⟨windows, others⟩ := ih next ran
    exact ⟨_, .cons goes rfl complete others⟩

/-- The run waits for more input, whatever the sink is. It keeps what there is in front of a window. -/
def Waits (dictionary : Array UInt8) (config : DecoderConfig) (stopAt : Option Nat)
    (start : WindowRun) (c : Cursor) : Prop :=
  ∃ r c', (∀ sink, run dictionary config stopAt c sink start = (.ok (r, c'), sink)) ∧
    stopAt ≠ some r.total ∧ (r.decoder.inWindow = false → c' = c)

theorem waits_nil (goes : stopAt ≠ some start.total) (empty : c.isEmpty = true) :
    start.Waits dictionary config stopAt c :=
  ⟨start, c, fun _ => run_stops (.inr empty), goes, fun _ => rfl⟩

theorem waits_stalled (phase : start.decoder.phase = .header)
    (goes : ¬ (stopAt = some start.total ∨ c.isEmpty = true))
    (stalled : (start.decoder.decode ⟨dictionary, config, start.total⟩ c start.target).outcome =
      .ok .needMoreData) : start.Waits dictionary config stopAt c := by
  have ran (sink : Sink) := @run_goes dictionary config stopAt c sink start goes
  simp only [proceed, stalled] at ran
  exact ⟨_, _, ran, fun stops => goes (.inl stops), WindowDecoder.cursor_waits phase stalled⟩

namespace Windows

theorem filter_nil (between : start.Between dictionary config)
    (h : Windows dictionary config stopAt start c windows last c') {n : Nat}
    (beyond : n ≤ c.offset) : windows.filter (·.stop ≤ n) = [] := by
  rw [List.filter_eq_nil_iff]
  intro window mem
  have stops := h.stops between window mem
  simp only [decide_eq_true_eq]
  omega

/-- Of the windows of a delta, those that lie within its first bytes are there, and the next one
waits for more. -/
theorem cut (between : start.Between dictionary config) {more : List UInt8}
    (h : Windows dictionary config stopAt start (c.extend more) windows last c') :
    ∃ middle c₁, Windows dictionary config stopAt start c
        (windows.filter (·.stop ≤ c.offset + c.rest.length)) middle c₁ ∧
      ((middle = last ∧ c' = c₁.extend more) ∨
        c.offset + c.rest.length < c'.offset ∧ middle.Waits dictionary config stopAt c₁) := by
  generalize whole : c.extend more = c₀ at h
  induction h generalizing c with
  | nil run => exact ⟨run, c, .nil _ _, .inl ⟨rfl, whole.symm⟩⟩
  | @cons start last c₀ c' windows low high progress goes decoded complete others ih =>
    subst whole
    have next := (between.next decoded complete).1
    have all := Windows.cons goes decoded complete others
    obtain ⟨front, back⟩ := all.stops between _ List.mem_cons_self
    by_cases empty : c.isEmpty = true
    · have none : c.rest.length = 0 := List.length_eq_zero_iff.2 (List.isEmpty_iff.1 empty)
      rw [none, Nat.add_zero, all.filter_nil between (show c.offset ≤ _ from Nat.le_refl _)]
      refine ⟨start, c, .nil _ _, .inr ⟨?_, waits_nil (fun stops => goes (.inl stops)) empty⟩⟩
      exact Nat.lt_of_lt_of_le front back
    · have here : ¬ (stopAt = some start.total ∨ c.isEmpty = true) :=
        fun stops => stops.elim (fun stops => goes (.inl stops)) empty
      by_cases stalled : (start.decoder.decode ⟨dictionary, config, start.total⟩ c
          start.target).outcome = .ok .needMoreData
      · subst decoded
        have beyond := WindowDecoder.beyond_decode between.ready.ready between.phase stalled complete
        rw [List.filter_cons_of_neg (by simpa using beyond),
          others.filter_nil next (Nat.le_of_lt beyond)]
        refine ⟨start, c, .nil _ _, .inr ⟨?_, waits_stalled between.phase here stalled⟩⟩
        exact Nat.lt_of_lt_of_le beyond back
      · have extended := WindowDecoder.decode_extend between.ready.ready stalled more
        have reaches := (WindowDecoder.reaches_decode start.decoder ⟨dictionary, config, start.total⟩
          c start.target).offset_add_length
        rw [decoded] at extended
        generalize here' : start.decoder.decode ⟨dictionary, config, start.total⟩ c start.target =
          progress' at *
        obtain ⟨outcome, decoder, c₁, target⟩ := progress'
        simp only at extended reaches
        subst extended
        have within : c₁.offset ≤ c.offset + c.rest.length := by omega
        obtain ⟨middle, c₂, before, after⟩ := ih next rfl
        rw [reaches] at before after
        refine ⟨middle, c₂, ?_, after⟩
        rw [List.filter_cons_of_pos]
        · exact @Windows.cons _ _ _ start middle c c₂ _ low high ⟨outcome, decoder, c₁, target⟩ here
            here' complete before
        · exact decide_eq_true within

theorem cut_ends (between : start.Between dictionary config) {middle : WindowRun} {c₁ : Cursor}
    (before : Windows dictionary config stopAt start c
      (windows.filter (·.stop ≤ c.offset + c.rest.length)) middle c₁) :
    c₁.rest = [] ↔ c.rest = [] ∨ ∃ window ∈ windows, window.stop = c.offset + c.rest.length := by
  have ends := before.reaches.offset_add_length
  have less := before.reaches.length_le
  constructor
  · intro empty
    rw [empty, List.length_nil, Nat.add_zero] at ends
    rcases before.ends with ⟨rfl, -⟩ | ⟨window, mem, stop⟩
    · exact .inl empty
    · exact .inr ⟨window, (List.mem_filter.1 mem).1, stop.trans ends⟩
  · rintro (empty | ⟨window, mem, stop⟩)
    · rw [empty] at less
      exact List.eq_nil_of_length_eq_zero (Nat.le_zero.1 less)
    · have within := before.stops between window
        (List.mem_filter.2 ⟨mem, decide_eq_true (Nat.le_of_eq stop)⟩)
      exact List.eq_nil_of_length_eq_zero (by omega)

/-- What a run makes of the first bytes of a delta. It writes the windows that lie within them. Either
these are all, or it waits for more, which it does between two windows only where one ends. -/
theorem run_cut (between : start.Between dictionary config) {more : List UInt8}
    (h : Windows dictionary config stopAt start (c.extend more) windows last c')
    (through : stopAt = some last.total ∨ c'.rest = []) (sink : Sink)
    (unbounded : sink.capacity = none) :
    ∃ r c₂, WindowRun.run dictionary config stopAt c sink start = (.ok (r, c₂),
        { sink with written :=
          sink.written ++ outputs (windows.filter (·.stop ≤ c.offset + c.rest.length)) }) ∧
      (r = last ∧ c' = c₂.extend more ∨
        c.offset + c.rest.length < c'.offset ∧ stopAt ≠ some r.total) ∧
      (r.decoder.inWindow = false ∧ c₂.rest = [] ↔
        c.rest = [] ∨ ∃ window ∈ windows, window.stop = c.offset + c.rest.length) := by
  obtain ⟨middle, c₁, before, after⟩ := h.cut between
  have outside := (before.between between).inWindow
  rw [before.run between sink unbounded, ← before.cut_ends between]
  rcases after with ⟨rfl, rfl⟩ | ⟨beyond, r, c₂, ran, goes, kept⟩
  · have through' : stopAt = some middle.total ∨ c₁.isEmpty = true :=
      through.imp_right fun empty => by
        rw [Cursor.isEmpty, List.isEmpty_iff]
        exact (List.append_eq_nil_iff.1 empty).1
    rw [run_stops through']
    exact ⟨middle, c₁, rfl, .inl ⟨rfl, rfl⟩, ⟨And.right, fun empty => ⟨outside, empty⟩⟩⟩
  · refine ⟨r, c₂, ran _, .inr ⟨beyond, goes⟩, ?_, ?_⟩
    · rintro ⟨outside', empty⟩
      rw [← kept outside']
      exact empty
    · intro empty
      have same := ran sink
      rw [run_stops (.inr (List.isEmpty_iff.2 empty))] at same
      cases same
      exact ⟨outside, empty⟩

end Windows

end WindowRun

/-! ## File headers -/

namespace TableStage

variable {c c' : Cursor} {more : List UInt8}

theorem cut_parseHeader {header : FileHeader}
    (h : parseHeader (c.extend more) = .ok (some (header, c'))) :
    (∃ c₁, parseHeader c = .ok (some (header, c₁)) ∧ c' = c₁.extend more) ∨
      parseHeader c = .ok none ∧ c.offset + c.rest.length < c'.offset := by
  have ends := (reaches_parseHeader h).offset_add_length
  cases parsed : parseHeader c with
  | error error =>
    rw [parseHeader_extend_error parsed] at h
    cases h
  | ok result =>
    cases result with
    | some p =>
      obtain ⟨header', c₁⟩ := p
      rw [parseHeader_extend parsed] at h
      cases h
      exact .inl ⟨c₁, rfl, rfl⟩
    | none =>
      refine .inr ⟨rfl, ?_⟩
      simp only [parseHeader] at h parsed
      split at parsed
      · cases parsed
      · next waits =>
        split at h
        · next read =>
          cases h
          have needs := FileHeader.local_parse.needs waits read
          simp only [Cursor.extend_offset, Cursor.extend_rest, List.length_append] at ends
          omega
        · cases h
        · cases h
        · cases h
      · cases parsed
      · cases parsed

theorem cut_runWindows {run : WindowRun} (between : run.Between CodeTable.standardBytes config)
    {stage : TableStage} (ran : runWindows run (c.extend more) = .ok (stage, c'))
    {stored : Array UInt8} (whole : stage.stored? = some stored) :
    (∃ c₁, runWindows run c = .ok (stage, c₁) ∧ c' = c₁.extend more) ∨
      c.offset + c.rest.length < c'.offset ∧
        ∃ stage' c₁, runWindows run c = .ok (stage', c₁) ∧ stage'.stored? = none := by
  have sound := WindowRun.sound_run between.ready (some CodeTable.storedSize) (c.extend more) {}
  simp only [runWindows] at ran ⊢
  rcases all : run.run CodeTable.standardBytes config (some CodeTable.storedSize) (c.extend more) {}
    with ⟨error | ⟨last, c₂⟩, sink⟩
  · rw [all] at ran
    cases ran
  · rw [all] at ran sound
    cases ran
    have through := total_of_stored sound.1 (by rw [whole]; rfl)
    obtain ⟨windows, all⟩ := WindowRun.windows_of_run between all (.inl through)
    obtain ⟨r, c₁, first, behind | ⟨beyond, goes⟩, -⟩ :=
      all.run_cut between (.inl through) {} rfl
    · obtain ⟨rfl, rfl⟩ := behind
      exact .inl ⟨c₁, by rw [first], rfl⟩
    · have sound := WindowRun.sound_run between.ready (some CodeTable.storedSize) c {}
      rw [first] at sound ⊢
      refine .inr ⟨beyond, .windows r, c₁, rfl, ?_⟩
      rw [← Option.not_isSome_iff_eq_none]
      exact fun some => goes (total_of_stored sound.1 some)

theorem cut_run {stage : TableStage} (ran : header.run (c.extend more) = .ok (stage, c'))
    {stored : Array UInt8} (whole : stage.stored? = some stored) :
    (∃ c₁, header.run c = .ok (stage, c₁) ∧ c' = c₁.extend more) ∨
      c.offset + c.rest.length < c'.offset ∧
        ∃ stage' c₁, header.run c = .ok (stage', c₁) ∧ stage'.stored? = none := by
  simp only [run] at ran ⊢
  split at ran
  · cases ran
  · cases ran
    cases whole
  · next fileHeader behind read =>
    split at ran
    · cases ran
    · next standard =>
      have between : (WindowRun.ofDecoder (.ofVersion fileHeader.version)).Between
          CodeTable.standardBytes config :=
        WindowRun.between_ofDecoder CodeTable.valid_standard rfl
      rcases cut_parseHeader read with ⟨c₁, here, rfl⟩ | ⟨waits, beyond⟩
      · have ends := (reaches_parseHeader here).offset_add_length
        simp only [here, if_neg standard, ← ends]
        exact cut_runWindows between ran whole
      · have sound := sound_runWindows between.ready behind
        rw [ran] at sound
        exact .inr ⟨Nat.lt_of_lt_of_le beyond sound.2.offset_le, header, c, by rw [waits], rfl⟩

end TableStage

namespace Session

variable {c c' : Cursor} {decoder : WindowDecoder} {more : List UInt8}

theorem cut_opens (h : Opens (c.extend more) decoder c') (dictionary : Array UInt8)
    (config : DecoderConfig) (sink : Sink) :
    (∃ c₁, Opens c decoder c₁ ∧ c' = c₁.extend more) ∨
      c.offset + c.rest.length < c'.offset ∧
        ∃ session c₁, (start dictionary config).run c sink = (.ok (session, c₁), sink) ∧
          (session.isComplete = true → c₁ = c) := by
  cases h with
  | standard header =>
    rcases TableStage.cut_parseHeader header with ⟨c₁, here, rfl⟩ | ⟨waits, beyond⟩
    · exact .inl ⟨c₁, .standard here, rfl⟩
    · exact .inr ⟨beyond, start dictionary config, c, by simp only [start, run, waits], fun _ => rfl⟩
  | @table version near same behind _ sizes stage stored _ header checked ran whole installed =>
    rcases TableStage.cut_parseHeader header with ⟨c₁, here, rfl⟩ | ⟨waits, beyond⟩
    · have ends := (TableStage.reaches_parseHeader here).offset_add_length
      rw [← ends]
      rcases TableStage.cut_run ran whole with ⟨c₂, ran', rfl⟩ | ⟨beyond, stage', c₂, ran', waits⟩
      · exact .inl ⟨c₂, .table here checked ran' whole installed, rfl⟩
      · refine .inr ⟨beyond, ⟨dictionary, config, .table version sizes stage'⟩, c₂, ?_, fun h => by
          cases h⟩
        simp only [start, run, here, afterHeader, checked, runTable, ran', waits]
    · have sound := @TableStage.sound_run .header trivial behind
      rw [ran] at sound
      exact .inr ⟨Nat.lt_of_lt_of_le beyond sound.2.offset_le, start dictionary config, c,
        by simp only [start, run, waits], fun _ => rfl⟩

/-- The parts of a delta: up to `front` there is its file header, with the delta of its code table if
it has one, and behind that there are the windows. -/
def Parts (dictionary : Array UInt8) (config : DecoderConfig) (delta : List UInt8) (front : Nat)
    (windows : List PlacedWindow) : Prop :=
  ∃ decoder c last, Opens ⟨0, delta⟩ decoder c ∧ c.offset = front ∧
    WindowRun.Windows dictionary config none (.ofDecoder decoder) c windows last ⟨delta.length, []⟩

variable {dictionary : Array UInt8} {config : DecoderConfig} {delta first : List UInt8} {front : Nat}
  {windows : List PlacedWindow}

/-- The first bytes of a delta are decoded as far as its parts lie within them. -/
theorem run_first (parts : Parts dictionary config (first ++ more) front windows) :
    ∃ session c, (start dictionary config).run ⟨0, first⟩ {} =
        (.ok (session, c), ⟨outputs (windows.filter (·.stop ≤ first.length)), none⟩) ∧
      (c.rest = [] ∧ session.isComplete = true ↔
        first = [] ∨ first.length = front ∨ ∃ window ∈ windows, window.stop = first.length) := by
  obtain ⟨decoder, c, last, opens, rfl, all⟩ := parts
  rcases @cut_opens ⟨0, first⟩ c decoder more opens dictionary config {} with
    ⟨c₁, here, rfl⟩ | ⟨beyond, session, c₁, ran, kept⟩
  · have ends := here.reaches.offset_add_length
    simp only [Nat.zero_add] at ends
    obtain ⟨r, c₂, ran, -, boundary⟩ := all.run_cut here.between (.inr rfl) {} rfl
    rw [ends] at ran boundary
    refine ⟨⟨dictionary, config, .windows r⟩, c₂, ?_, ?_⟩
    · rw [here.run, runWindows]
      simp only [start, ran, Array.empty_append]
    · have used : c₁.rest = [] ↔ first = [] ∨ first.length = c₁.offset := by
        rw [← List.length_eq_zero_iff, ← List.length_eq_zero_iff]
        omega
      rw [← or_assoc, Cursor.extend_offset, ← used, ← boundary, and_comm, isComplete,
        Bool.not_eq_true']
  · simp only [Nat.zero_add] at beyond
    have none := all.filter_nil opens.between (Nat.le_of_lt beyond)
    refine ⟨session, c₁, by rw [none]; exact ran, ?_, ?_⟩
    · rintro ⟨empty, complete⟩
      rw [kept complete] at empty
      exact .inl empty
    · rintro (rfl | stop | ⟨window, mem, stop⟩)
      · cases ran
        exact ⟨rfl, rfl⟩
      · omega
      · have later := all.stops opens.between window mem
        omega

theorem accepted_cases {sink sink' : Sink}
    (accepted : StreamDecoder.conclude config ((start dictionary config).run ⟨0, delta⟩ sink) =
      (.ok (), sink')) :
    (delta = [] ∧ sink' = sink) ∨ ∃ decoder c windows last offset, Opens ⟨0, delta⟩ decoder c ∧
      WindowRun.Windows dictionary config none (.ofDecoder decoder) c windows last ⟨offset, []⟩ ∧
      (WindowRun.ofDecoder decoder).run dictionary config none c sink =
        (.ok (last, ⟨offset, []⟩), sink') := by
  obtain ⟨ended, sinks⟩ := Prod.ext_iff.1 accepted
  rcases opens_or_rests dictionary config ⟨0, delta⟩ sink with
    ⟨decoder, c, opens⟩ | ⟨error, ran⟩ | ⟨session, c, ran, kept⟩
  · rw [opens.run] at ended sinks
    obtain ⟨last, offset, ran, phase⟩ := StreamDecoder.conclude_ok ended
    rw [sinks] at ran
    obtain ⟨windows, all⟩ := WindowRun.windows_of_run opens.between ran
      (.inr ⟨WindowDecoder.inWindow_eq_false.2 phase, rfl⟩)
    exact .inr ⟨decoder, c, windows, last, offset, opens, all, ran⟩
  · rw [ran] at ended
    cases ended
  · rw [ran] at ended sinks
    rw [StreamDecoder.conclude_sink] at sinks
    obtain ⟨empty, complete⟩ := StreamDecoder.conclude_ok_iff.1 ended
    rw [kept complete] at empty
    exact .inl ⟨empty, sinks.symm⟩

/-- A delta that is accepted has parts, unless it is empty. -/
theorem parts_of_accepted {target : Array UInt8}
    (accepted : decodeMemory dictionary delta config = .ok target) (nonempty : delta ≠ []) :
    ∃ front windows, Parts dictionary config delta front windows := by
  obtain ⟨ended, -⟩ := decodeMemory_ok_iff.1 accepted
  rw [decodeStream_singleton] at ended
  rcases accepted_cases (Prod.ext ended rfl) with
    ⟨empty, -⟩ | ⟨decoder, c, windows, last, offset, opens, all, -⟩
  · exact absurd empty nonempty
  · have ends := (opens.reaches.trans all.reaches).offset_add_length
    simp only [List.length_nil, Nat.add_zero, Nat.zero_add] at ends
    subst ends
    exact ⟨c.offset, windows, decoder, c, last, opens, rfl, all⟩

theorem target_of_parts {target : Array UInt8}
    (accepted : decodeMemory dictionary delta config = .ok target)
    (parts : Parts dictionary config delta front windows) : target = outputs windows := by
  obtain ⟨decoder, c, last, opens, -, all⟩ := parts
  have ran := (all.run opens.between {} rfl).trans (WindowRun.run_stops (.inr rfl))
  rw [← (decodeMemory_ok_iff.1 accepted).2, decodeStream_singleton, opens.run,
    StreamDecoder.conclude_sink, StreamDecoder.runWindows_sink]
  exact (congrArg (fun result => result.2.written) ran).trans Array.empty_append

end Session

/-! ## Streams -/

namespace StreamDecoder

variable {dictionary : Array UInt8} {config : DecoderConfig} {d : StreamDecoder} {sink sink' : Sink}

theorem feed_append_error {pieces : List (List UInt8)} {error : DecodeError}
    (h : d.feed sink pieces = (.error error, sink')) (more : List (List UInt8)) :
    d.feed sink (pieces ++ more) = (.error error, sink') := by
  induction pieces generalizing d sink with
  | nil => cases h
  | cons piece rest ih =>
    simp only [List.cons_append, feed] at h ⊢
    split at h
    · exact h
    · exact ih h

/-- The only fault that the end of a delta can have is that it comes too early. -/
theorem finish_cases (ready : d.Ready config) : d.finish.1 = .ok () ∨
    d.finish.1 = .error (.format (d.offset + d.pending.length) .truncated) := by
  obtain ⟨session, active, -, -⟩ := ready
  simp only [finish, active]
  split
  · exact .inl rfl
  · exact .inr rfl

theorem feed_first {pieces : List (List UInt8)} {more : List UInt8} {session : Session} {c : Cursor}
    (accepted : (decodeStream dictionary config {} (pieces ++ [more])).1 = .ok ())
    (ran : (Session.start dictionary config).run ⟨0, pieces.flatten⟩ {} = (.ok (session, c), sink)) :
    ∃ d, ((idle config).start dictionary).2.feed {} pieces = (.ok d, sink) ∧
      d.finish.1 = if c.rest = [] ∧ session.isComplete = true then .ok ()
        else .error (.format pieces.flatten.length .truncated) := by
  have agree := agree_start dictionary config {} pieces
  have sound := sound_feed (ready_start dictionary config) {} pieces
  rw [ran] at agree
  rcases fed : ((idle config).start dictionary).2.feed {} pieces with ⟨error | d, sink'⟩
  · simp only [decodeStream, decodePieces, feed_append_error fed] at accepted
    cases accepted
  · rw [fed] at sound
    obtain ⟨ready, counted, -⟩ := sound
    simp only [decodeStream, decodePieces, fed] at agree
    obtain ⟨rfl, verdicts⟩ := agree
    refine ⟨d, rfl, ?_⟩
    have whole := (ok_iff_of_unlocated verdicts).trans conclude_ok_iff
    split
    · next ends => exact whole.2 ends
    · next early =>
      have counted : d.offset + d.pending.length = pieces.flatten.length :=
        counted.trans (Nat.zero_add _)
      rw [(finish_cases ready).resolve_left fun ok => early (whole.1 ok), counted]

/-- A delta that is accepted consists of a file header and windows, which make its target. If only its
first bytes arrive, in whatever pieces, no piece fails, and the windows that lie within these bytes
have been written. That the rest is missing is found at the end, unless the cut is in front of the
delta, behind its file header or behind a window. -/
theorem feed_truncated {delta : List UInt8} {target : Array UInt8}
    (accepted : decodeMemory dictionary delta config = .ok target) (nonempty : delta ≠ []) :
    (∃ front windows, Session.Parts dictionary config delta front windows) ∧
      ∀ front windows, Session.Parts dictionary config delta front windows →
        target = outputs windows ∧
        ∀ (pieces : List (List UInt8)) (more : List UInt8), pieces.flatten ++ more = delta →
          let first := pieces.flatten
          ∃ d, ((idle config).start dictionary).2.feed {} pieces =
              (.ok d, ⟨outputs (windows.filter (·.stop ≤ first.length)), none⟩) ∧
            d.finish.1 =
              if first = [] ∨ first.length = front ∨ ∃ window ∈ windows, window.stop = first.length
              then .ok () else .error (.format first.length .truncated) := by
  refine ⟨Session.parts_of_accepted accepted nonempty, fun front windows parts =>
    ⟨Session.target_of_parts accepted parts, fun pieces more whole => ?_⟩⟩
  subst whole
  obtain ⟨session, c, ran, boundary⟩ := Session.run_first parts
  have apart := agree_start dictionary config {} (pieces ++ [more])
  rw [List.flatten_append, List.flatten_singleton, ← decodeStream_singleton] at apart
  have accepted' := (ok_iff_of_unlocated apart.2).2 (decodeMemory_ok_iff.1 accepted).1
  simp only [← boundary]
  exact feed_first accepted' ran

/-- Two windows, each with all of its body in one section. -/
theorem feed_truncated_interleaved :
    let delta : List UInt8 := [0xD6, 0xC3, 0xC4, 0x53, 0, 0, 7, 1, 0, 0, 2, 0, 2, 0x61,
      0, 7, 1, 0, 0, 2, 0, 2, 0x62]
    decodeMemory #[] delta = .ok #[0x61, 0x62] ∧ delta ≠ [] ∧
      (∃ front windows, Session.Parts #[] {} delta front windows) ∧
      ∀ front windows, Session.Parts #[] {} delta front windows →
        #[0x61, 0x62] = outputs windows ∧
        ∀ (pieces : List (List UInt8)) (more : List UInt8), pieces.flatten ++ more = delta →
          let first := pieces.flatten
          ∃ d, ((idle {}).start #[]).2.feed {} pieces =
              (.ok d, ⟨outputs (windows.filter (·.stop ≤ first.length)), none⟩) ∧
            d.finish.1 =
              if first = [] ∨ first.length = front ∨ ∃ window ∈ windows, window.stop = first.length
              then .ok () else .error (.format first.length .truncated) := by
  intro delta
  have accepted : decodeMemory #[] delta = .ok #[0x61, 0x62] := by decide +kernel
  have nonempty : delta ≠ [] := List.cons_ne_nil _ _
  exact ⟨accepted, nonempty, feed_truncated accepted nonempty⟩

end StreamDecoder

end DeltaCoding
