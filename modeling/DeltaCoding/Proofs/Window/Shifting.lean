import DeltaCoding.Proofs.Window.Cutting

/-!
# Moving a window

What a window decodes to does not depend on where it stands in the stream. Every step of a body
commutes with a shift of all offsets (`BodyState.step_shift`), and so does a whole body. Two decoders
in front of a window then come to the same, whatever earlier windows have left behind and wherever
they stand (`WindowDecoder.alike_shift`).
-/

namespace DeltaCoding

namespace Sections

/-- The same places with `n` more bytes in front of the stream. -/
def shift (n : Nat) : Sections → Sections
  | separate data instructions addresses =>
    separate (data.shift n) (instructions.shift n) (addresses.shift n)
  | interleaved c => interleaved (c.shift n)

@[simp] theorem isInterleaved_shift (sections : Sections) (n : Nat) :
    (sections.shift n).isInterleaved = sections.isInterleaved := by
  cases sections <;> rfl

@[simp] theorem data_shift (sections : Sections) (n : Nat) :
    (sections.shift n).data = sections.data.shift n := by
  cases sections <;> rfl

@[simp] theorem instructions_shift (sections : Sections) (n : Nat) :
    (sections.shift n).instructions = sections.instructions.shift n := by
  cases sections <;> rfl

@[simp] theorem addresses_shift (sections : Sections) (n : Nat) :
    (sections.shift n).addresses = sections.addresses.shift n := by
  cases sections <;> rfl

@[simp] theorem withData_shift (sections : Sections) (c : Cursor) (n : Nat) :
    (sections.shift n).withData (c.shift n) = (sections.withData c).shift n := by
  cases sections <;> rfl

@[simp] theorem withInstructions_shift (sections : Sections) (c : Cursor) (n : Nat) :
    (sections.shift n).withInstructions (c.shift n) = (sections.withInstructions c).shift n := by
  cases sections <;> rfl

@[simp] theorem withAddresses_shift (sections : Sections) (c : Cursor) (n : Nat) :
    (sections.shift n).withAddresses (c.shift n) = (sections.withAddresses c).shift n := by
  cases sections <;> rfl

end Sections

/-- The same end with `n` more bytes in front of the stream. -/
def BodyEnd.shift (n : Nat) : BodyEnd → BodyEnd
  | malformed offset error => malformed (offset + n) error
  | ending => ending

/-- The same state with `n` more bytes in front of the stream. -/
def BodyState.shift (s : BodyState) (n : Nat) : BodyState :=
  { s with reader := s.reader.shift n, sections := s.sections.shift n }

/-- The same step with `n` more bytes in front of the stream. -/
def BodyStep.shift (n : Nat) : BodyStep → BodyStep
  | next s => next (s.shift n)
  | ended s ending => ended (s.shift n) (ending.shift n)

namespace BodyState

variable {context : BodyContext}

theorem stalled_shift (context : BodyContext) (interleaved : Bool) (offset n : Nat)
    (part : Section) : context.stalled interleaved (offset + n) part =
      (context.stalled interleaved offset part).shift n := by
  simp only [BodyContext.stalled]
  split <;> rfl

theorem ofStop_shift (offset n : Nat) (stop : ParseStop) :
    BodyEnd.ofStop (offset + n) stop = (BodyEnd.ofStop offset stop).shift n := by
  cases stop <;> rfl

theorem perform_shift (s : BodyState) (context : BodyContext) (instruction : Instruction)
    (n : Nat) : (s.shift n).perform context instruction =
      ((s.perform context instruction).1.shift n, (s.perform context instruction).2) := by
  cases instruction with
  | add size =>
    simp only [perform, performAdd, shift, Sections.data_shift, (Parser.local_bytes size).shift]
    cases Parser.bytes size s.sections.data with
    | error stop => rfl
    | ok p => simp only [Except.map, Sections.withData_shift]
  | run size =>
    simp only [perform, performRun, shift, Sections.data_shift, Parser.local_byte.shift]
    cases Parser.byte s.sections.data with
    | error stop => rfl
    | ok p => simp only [Except.map, Sections.withData_shift]
  | copy size mode =>
    simp only [perform, performCopy, produced, shift, Sections.addresses_shift,
      (AddressCache.local_decode _ _ _).shift]
    cases s.cache.decode _ mode s.sections.addresses with
    | error stop => cases stop <;> rfl
    | ok p =>
      simp only [Except.map, Sections.withAddresses_shift]
      split <;> rfl

theorem afterRead_shift (s : BodyState) (reader : InstructionReader) (c : Cursor) (n : Nat) :
    (s.shift n).afterRead (reader.shift n) (c.shift n) = (s.afterRead reader c).shift n := by
  simp only [afterRead, shift, Sections.withInstructions_shift]

theorem execute_shift (s : BodyState) (context : BodyContext) (before : Sections)
    (instruction : Instruction) (n : Nat) :
    (s.shift n).execute context (before.shift n) instruction =
      (s.execute context before instruction).shift n := by
  have produced : (s.shift n).produced context = s.produced context := rfl
  simp only [execute, produced, perform_shift, Sections.instructions_shift, Cursor.shift_offset,
    Sections.isInterleaved_shift]
  split
  · rfl
  · split
    · rfl
    · cases s.perform context instruction with
      | mk s' outcome =>
        cases outcome with
        | done => rfl
        | blocked part =>
          simp only [stalled_shift]
          rfl
        | failed stop =>
          simp only [ofStop_shift]
          rfl

theorem step_shift (s : BodyState) (context : BodyContext) (n : Nat) :
    (s.shift n).step context = (s.step context).shift n := by
  have produced : (s.shift n).produced context = s.produced context := rfl
  have size : (s.shift n).target.size = s.target.size := rfl
  have reader : (s.shift n).reader = s.reader.shift n := rfl
  have sections : (s.shift n).sections = s.sections.shift n := rfl
  simp only [step, produced, size, reader, sections, Sections.instructions_shift,
    InstructionReader.next_shift, Cursor.shift_offset, Sections.isInterleaved_shift]
  split
  · rfl
  · split
    · rfl
    · rcases s.reader.next s.sections.instructions with ⟨stop | instruction, reader, c⟩
      · cases stop <;> simp only [afterRead_shift, stalled_shift, ofStop_shift] <;> rfl
      · cases instruction with
        | none =>
          simp only [afterRead_shift]
          split <;> rfl
        | some instruction =>
          simp only [afterRead_shift]
          exact execute_shift _ _ _ _ _

theorem run_shift (s : BodyState) (context : BodyContext) (n : Nat) :
    (s.shift n).run context = ((s.run context).1.shift n, (s.run context).2.shift n) := by
  fun_induction run s context with
  | case1 s s' stepped ih =>
    have shifted := step_shift s context n
    rw [stepped] at shifted
    rw [run_next shifted, ih]
  | case2 s s' ending stepped =>
    have shifted := step_shift s context n
    rw [stepped] at shifted
    rw [run_ended shifted]

/-- The calls that a reader has had before make no difference to a step, unless the body ends there
and keeps its reader. -/
theorem step_past (s : BodyState) (context : BodyContext) {reader : InstructionReader}
    (table : reader.table = s.reader.table) (pending : reader.pending = s.reader.pending) :
    step { s with reader := reader } context = s.step context ∨ ∃ ending,
      s.step context = .ended s ending ∧
        step { s with reader := reader } context = .ended { s with reader := reader } ending := by
  have produced : BodyState.produced { s with reader := reader } context = s.produced context := rfl
  have next (c : Cursor) : reader.next c = s.reader.next c := by
    obtain ⟨_, _, lastOffset, lastPending⟩ := reader
    subst table pending
    exact InstructionReader.next_past s.reader c lastOffset lastPending
  have afterRead (reader' : InstructionReader) (c : Cursor) :
      BodyState.afterRead { s with reader := reader } reader' c = s.afterRead reader' c := rfl
  simp only [step, produced, next, afterRead]
  split
  · exact .inr ⟨_, rfl, rfl⟩
  · split
    · exact .inr ⟨_, rfl, rfl⟩
    · exact .inl rfl

theorem run_past (s : BodyState) (context : BodyContext) {reader : InstructionReader}
    (table : reader.table = s.reader.table) (pending : reader.pending = s.reader.pending) :
    run { s with reader := reader } context = s.run context ∨ ∃ ending,
      s.run context = (s, ending) ∧
        run { s with reader := reader } context = ({ s with reader := reader }, ending) := by
  rcases step_past s context table pending with same | ⟨ending, ended, ended'⟩
  · left
    cases stepped : s.step context with
    | next s' => rw [run_next stepped, run_next (same.trans stepped)]
    | ended s' ending => rw [run_ended stepped, run_ended (same.trans stepped)]
  · exact .inr ⟨ending, run_ended ended, run_ended ended'⟩

/-- The end of a body with `n` more bytes in front of the stream. -/
structure Moved (n : Nat) (p q : BodyState × BodyEnd) : Prop where
  ending : q.2 = p.2.shift n
  sections : q.1.sections = p.1.sections.shift n
  target : q.1.target = p.1.target
  table : q.1.reader.table = p.1.reader.table
  cache : q.1.cache = p.1.cache

theorem moved_run (s : BodyState) (context : BodyContext) (n : Nat) :
    Moved n (s.run context) (run { s with sections := s.sections.shift n } context) := by
  have shifted := run_shift s context n
  rcases run_past (s.shift n) context (show s.reader.table = _ from rfl) rfl with
    same | ⟨ending, ended, ended'⟩
  · change run { s with sections := s.sections.shift n } context = _ at same
    rw [same, shifted]
    exact ⟨rfl, rfl, rfl, rfl, rfl⟩
  · change run { s with sections := s.sections.shift n } context = _ at ended'
    rw [shifted] at ended
    obtain ⟨left, right⟩ := Prod.mk.inj ended
    rw [ended', ← right]
    refine ⟨rfl, ?_, ?_, ?_, ?_⟩
    · exact (congrArg BodyState.sections left).symm
    · exact (congrArg BodyState.target left).symm
    · exact (congrArg (fun s => s.reader.table) left).symm
    · exact (congrArg BodyState.cache left).symm

end BodyState

/-- Two places in deltas with the same dictionary at which the same headers are accepted. -/
structure WindowContext.Same (context context' : WindowContext) : Prop where
  dictionary : context.dictionary = context'.dictionary
  header : ∀ version c, WindowHeader.parse (context.headerContext version)
      (context.config.checkLength context.decoded) (.ofCursor c) =
    WindowHeader.parse (context'.headerContext version)
      (context'.config.checkLength context'.decoded) (.ofCursor c)

theorem WindowContext.Same.refl (context : WindowContext) : context.Same context :=
  ⟨rfl, fun _ _ => rfl⟩

/-- The same call with `n` more bytes in front of the stream. -/
def WindowProgress.shift (progress : WindowProgress) (n : Nat) : WindowProgress :=
  { progress with cursor := progress.cursor.shift n }

namespace WindowDecoder

variable {d e : WindowDecoder} {context context' : WindowContext} {body : WindowBody} {c : Cursor}
  {target : Array UInt8} {n : Nat}

theorem checkSections_shift (layout : BodyLayout) (sections : Sections) (n : Nat) :
    WindowBody.checkSections layout (sections.shift n) =
      WindowBody.checkSections layout sections := by
  cases layout <;> cases sections <;> rfl

theorem conclude_shift {p q : BodyState × BodyEnd} (moved : BodyState.Moved n p q) (d : WindowDecoder)
    (body : WindowBody) (c : Cursor) : ((d.conclude body p.1 p.2 c).shift n).Alike
      (d.conclude body q.1 q.2 (c.shift n)) := by
  obtain ⟨s, ending⟩ := p
  obtain ⟨t, ending'⟩ := q
  obtain ⟨ends, sections, target, table, cache⟩ := moved
  simp only at ends sections target table cache
  subst ends
  cases ending with
  | needMoreData => exact ⟨rfl, fun h => by cases h⟩
  | malformed offset error => exact DecodeError.unlocated_locate _ _ _
  | breach => exact rfl
  | complete =>
    have checked : body.checkComplete t.sections t.target =
        body.checkComplete s.sections s.target := by
      simp only [WindowBody.checkComplete, sections, target, checkSections_shift]
    simp only [conclude, BodyEnd.shift, checked]
    cases body.checkComplete s.sections s.target with
    | error error => exact DecodeError.unlocated_locate _ _ _
    | ok u => exact ⟨rfl, by rw [target], rfl, target.symm, ⟨rfl, rfl⟩, rfl, table.symm,
        congrArg AddressCache.sizes cache.symm⟩

theorem split?_shift (c : Cursor) (m n : Nat) :
    (c.shift n).split? m = (c.split? m).map fun p => (p.1.shift n, p.2.shift n) := by
  have has : (c.shift n).has m = c.has m := rfl
  simp only [Cursor.split?, has]
  split
  · simp only [Option.map_some, Cursor.skip_shift]
    rfl
  · rfl

theorem splitSections?_shift (lengths : SectionLengths) (c : Cursor) (n : Nat) :
    splitSections? lengths (c.shift n) =
      (splitSections? lengths c).map fun p => (p.1.shift n, p.2.shift n) := by
  simp only [splitSections?, split?_shift, Option.bind_eq_bind, Option.pure_def]
  cases c.split? lengths.data with
  | none => rfl
  | some data =>
    simp only [Option.map_some, Option.bind_some, split?_shift]
    cases data.2.split? lengths.instructions with
    | none => rfl
    | some instructions =>
      simp only [Option.map_some, Option.bind_some, split?_shift]
      cases instructions.2.split? lengths.addresses <;> rfl

theorem resume_shift (dictionary : context.dictionary = context'.dictionary) (d : WindowDecoder)
    (body : WindowBody) (c : Cursor) (target : Array UInt8) (n : Nat) :
    ((d.resume context body c target).shift n).Alike
      (d.resume context' body (c.shift n) target) := by
  have same (moreAvailable : Bool) : context'.bodyContext body moreAvailable =
      context.bodyContext body moreAvailable := by
    simp only [WindowContext.bodyContext, dictionary]
  simp only [resume]
  cases body.layout with
  | standard lengths =>
    simp only [resumeStandard, splitSections?_shift, same]
    cases splitSections? lengths c with
    | none => exact rfl
    | some p =>
      exact conclude_shift (BodyState.moved_run (d.bodyState p.1 target) _ n) d body p.2
  | interleaved remaining =>
    have moved : BodyState.Moved n (d.runInterleaved context body remaining c target)
        (d.runInterleaved context' body remaining (c.shift n) target) := by
      rw [runInterleaved, runInterleaved, same]
      exact BodyState.moved_run (d.bodyState (.interleaved (c.window remaining)) target) _ n
    simp only [resumeInterleaved_eq]
    generalize d.runInterleaved context body remaining c target = p at *
    generalize d.runInterleaved context' body remaining (c.shift n) target = q at *
    rw [moved.sections, Sections.instructions_shift, Cursor.shift_offset, Cursor.shift_offset,
      Nat.add_sub_add_right, Cursor.skip_shift]
    exact conclude_shift moved d _ _

theorem readHeader_shift (same : d.SameStart e) (contexts : context.Same context') (c : Cursor)
    (n : Nat) : e.readHeader context' (c.shift n) =
      ((d.readHeader context c).1, (d.readHeader context c).2.shift n) := by
  have shifted := WindowHeader.shifts_parse (context'.headerContext e.version)
    (context'.config.checkLength context'.decoded) (.ofCursor c) n
  simp only [readHeader, same.version, contexts.header]
  exact shifted

/-- What a decoder makes of a window depends on neither the place of the window nor what earlier
windows have left behind. -/
theorem alike_shift (same : d.SameStart e) (contexts : context.Same context') (c : Cursor)
    (target : Array UInt8) (n : Nat) :
    ((d.decode context c target).shift n).Alike (e.decode context' (c.shift n) target) := by
  have read := readHeader_shift same contexts c n
  have entered (header : WindowHeader) :
      e.enter header target.size = d.enter header target.size := by
    simp only [enter, same.version, InstructionReader.reset, AddressCache.reset, same.table,
      same.sizes]
  simp only [decode, same.phase.1, same.phase.2, read]
  rcases d.readHeader context c with ⟨stop | header, s⟩
  · cases stop with
    | needMoreData => exact ⟨same.inWindow, fun _ => ⟨rfl, rfl⟩⟩
    | malformed error => exact DecodeError.unlocated_locate _ _ _
    | breach => exact rfl
  · have there : (s.shift n).cursor = s.cursor.shift n := rfl
    have has (m : Nat) : (s.cursor.shift n).has m = s.cursor.has m := rfl
    simp only [there, has, entered, ← same.version]
    split
    · exact resume_shift contexts.dictionary _ _ _ _ _
    · exact ⟨same.inWindow, fun _ => ⟨rfl, rfl⟩⟩

/-! ## What a decoder keeps -/

/-- The later decoder still has the code table and the sizes of the caches. -/
structure Keeps (d e : WindowDecoder) : Prop where
  version : e.version = d.version
  table : e.reader.table = d.reader.table
  sizes : e.cache.sizes = d.cache.sizes

theorem Keeps.refl (d : WindowDecoder) : d.Keeps d :=
  ⟨rfl, rfl, rfl⟩

theorem Keeps.trans {a b c : WindowDecoder} (hab : a.Keeps b) (hbc : b.Keeps c) : a.Keeps c :=
  ⟨hbc.version.trans hab.version, hbc.table.trans hab.table, hbc.sizes.trans hab.sizes⟩

theorem Keeps.sameStart (h : d.Keeps e) (phase : d.phase = .header) (phase' : e.phase = .header) :
    d.SameStart e :=
  ⟨⟨phase, phase'⟩, h.version.symm, h.table.symm, h.sizes.symm⟩

theorem keeps_conclude {s t : BodyState} (begins : s.reader.table = d.reader.table)
    (sizes : s.cache.sizes = d.cache.sizes) (leads : s.Leads t) (body : WindowBody)
    (ending : BodyEnd) (c : Cursor) : d.Keeps (d.conclude body t ending c).decoder := by
  have after : d.Keeps (d.afterBody body t) :=
    ⟨rfl, leads.table.trans begins, leads.sizes.trans sizes⟩
  simp only [conclude]
  split
  · exact after
  · exact after
  · exact after
  · split
    · exact after
    · exact ⟨after.version, after.table, after.sizes⟩

theorem keeps_resume (d : WindowDecoder) (context : WindowContext) (body : WindowBody) (c : Cursor)
    (target : Array UInt8) : d.Keeps (d.resume context body c target).decoder := by
  simp only [resume]
  split
  · simp only [resumeStandard]
    split
    · exact .refl d
    · exact keeps_conclude rfl rfl (BodyState.leads_run (d.bodyState _ target) _) body _ _
  · rw [resumeInterleaved_eq]
    exact keeps_conclude rfl rfl (BodyState.leads_run (d.bodyState _ target) _) _ _ _

theorem keeps_decode (d : WindowDecoder) (context : WindowContext) (c : Cursor)
    (target : Array UInt8) : d.Keeps (d.decode context c target).decoder := by
  simp only [decode]
  split
  · exact keeps_resume d context _ c target
  · split
    · exact .refl d
    · exact .refl d
    · exact .refl d
    · next header s read =>
      split
      · have entered : d.Keeps (d.enter header target.size).2 := ⟨rfl, rfl, rfl⟩
        exact entered.trans (keeps_resume _ _ _ _ _)
      · exact .refl d

end WindowDecoder

end DeltaCoding
