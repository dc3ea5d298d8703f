import DeltaCoding.Proofs.Window.Body

/-!
# Resuming a body

An interleaved body may be cut anywhere. A body that has stalled at a cut goes on, once there is
more input, just as the body that had all the input from the beginning (`BodyState.run_resume`).

Where exactly it has stalled may differ. At the end of the input a reader has passed over slots
without effect that it would otherwise have put back together with the instruction behind them. So
the two bodies are not equal but alike (`BodyState.Alike`): they read the same next. What they come
to is the same but for the place that an error is reported at.
-/

namespace DeltaCoding

/-- The end without the place of an error. -/
def BodyEnd.unlocated : BodyEnd → BodyEnd
  | malformed _ error => malformed 0 error
  | ending => ending

/-- The same body, more input for which may arrive or not. -/
def BodyContext.awaiting (context : BodyContext) (moreAvailable : Bool) : BodyContext :=
  { context with moreAvailable := moreAvailable }

namespace Sections

/-- The same places once `more` bytes of an interleaved stream have arrived. -/
def extend (more : List UInt8) : Sections → Sections
  | separate data instructions addresses => separate data instructions addresses
  | interleaved c => interleaved (c.extend more)

end Sections

namespace BodyState

variable {s s' t : BodyState} {context : BodyContext} {instruction : Instruction}
  {more : List UInt8} {moreAvailable : Bool}

/-- The same state once `more` bytes of an interleaved stream have arrived. -/
def extend (s : BodyState) (more : List UInt8) : BodyState :=
  { s with sections := s.sections.extend more }

/-! ## Alike bodies -/

/-- Two states of an interleaved body that read the same next. -/
structure Alike (context : BodyContext) (s t : BodyState) : Prop where
  layout : s.sections.isInterleaved = true ∧ t.sections.isInterleaved = true
  table : s.reader.table = t.reader.table
  fetch : InstructionReader.fetch s.reader.table s.reader.pending s.sections.instructions =
    InstructionReader.fetch t.reader.table t.reader.pending t.sections.instructions
  cache : s.cache = t.cache
  target : s.target = t.target
  /-- Where nothing more is read, they are at the same place. -/
  place : s.produced context = context.targetLength → s.sections = t.sections

theorem perform_withReader (s : BodyState) (context : BodyContext) (instruction : Instruction)
    (reader : InstructionReader) :
    BodyState.perform { s with reader := reader } context instruction =
      ({ (s.perform context instruction).1 with reader := reader },
        (s.perform context instruction).2) := by
  cases instruction with
  | add size =>
    simp only [perform, performAdd]
    split <;> rfl
  | run size =>
    simp only [perform, performRun]
    split <;> rfl
  | copy size mode =>
    simp only [perform, performCopy, produced]
    split
    · split <;> rfl
    · rfl
    · rfl

theorem reader_perform (s : BodyState) (context : BodyContext) (instruction : Instruction) :
    (s.perform context instruction).1.reader = s.reader :=
  congrArg (fun p => p.1.reader) (perform_withReader s context instruction s.reader)

end BodyState

/-- Two steps that come to the same. -/
def BodyStep.Alike (context : BodyContext) : BodyStep → BodyStep → Prop
  | next s, next t => s.Alike context t
  | ended s ending, ended t ending' => ending.unlocated = ending'.unlocated ∧
      s.target = t.target ∧ (ending = .complete → s.sections = t.sections)
  | _, _ => False

namespace BodyState

variable {s s' t : BodyState} {context : BodyContext} {instruction : Instruction}
  {more : List UInt8} {moreAvailable : Bool}

theorem unlocated_stalled (context : BodyContext) (interleaved : Bool) (offset offset' : Nat)
    (part : Section) : (context.stalled interleaved offset part).unlocated =
      (context.stalled interleaved offset' part).unlocated := by
  simp only [BodyContext.stalled]
  split <;> rfl

theorem unlocated_ofStop (offset offset' : Nat) (stop : ParseStop) :
    (BodyEnd.ofStop offset stop).unlocated = (BodyEnd.ofStop offset' stop).unlocated := by
  cases stop <;> rfl

theorem alike_withReader (layout : s.sections.isInterleaved = true) {reader : InstructionReader}
    (table : reader.table = s.reader.table) (pending : reader.pending = s.reader.pending) :
    s.Alike context { s with reader := reader } where
  layout := ⟨layout, layout⟩
  table := table.symm
  fetch := by rw [table, pending]
  cache := rfl
  target := rfl
  place _ := rfl

theorem alike_execute {before before' : Sections} {reader : InstructionReader}
    (layout : s.sections.isInterleaved = true) (table : reader.table = s.reader.table)
    (pending : reader.pending = s.reader.pending)
    (same : before.isInterleaved = before'.isInterleaved) :
    (s.execute context before instruction).Alike context
      (BodyState.execute { s with reader := reader } context before' instruction) := by
  have kept := leads_perform s context instruction
  have produced : BodyState.produced { s with reader := reader } context = s.produced context := rfl
  simp only [execute, produced]
  split
  · exact ⟨rfl, rfl, fun _ => rfl⟩
  · split
    · exact ⟨rfl, rfl, fun _ => rfl⟩
    · rw [perform_withReader s context instruction reader]
      have readers := reader_perform s context instruction
      generalize s.perform context instruction = performed at *
      obtain ⟨s', outcome⟩ := performed
      cases outcome with
      | done =>
        simp only at readers
        rw [← readers] at table pending
        exact alike_withReader (kept.layout.trans layout) table pending
      | blocked part =>
        refine ⟨?_, rfl, ?_⟩
        · rw [same]
          exact unlocated_stalled _ _ _ _ _
        · exact fun complete => absurd complete (stalled_ne_complete _ _ _)
      | failed stop =>
        exact ⟨unlocated_ofStop _ _ _, rfl, fun complete => absurd complete (ofStop_ne_complete _ _)⟩

theorem afterRead_alike (h : s.Alike context t) (reader reader' : InstructionReader) (c : Cursor) :
    t.afterRead reader' c = { s.afterRead reader c with reader := reader' } := by
  obtain ⟨⟨layout, layout'⟩, -, -, cache, target, -⟩ := h
  obtain ⟨_, cache, sections, target⟩ := s
  obtain ⟨_, cache', sections', target'⟩ := t
  simp only at cache target layout layout'
  subst cache target
  cases sections with
  | separate _ _ _ => cases layout
  | interleaved _ =>
    cases sections' with
    | separate _ _ _ => cases layout'
    | interleaved _ => rfl

theorem alike_step (h : s.Alike context t) : (s.step context).Alike context (t.step context) := by
  have sameRead := afterRead_alike h
  obtain ⟨⟨layout, layout'⟩, table, fetched, cache, target, place⟩ := h
  have produced : t.produced context = s.produced context := by simp only [BodyState.produced, target]
  have same : s.sections.isInterleaved = t.sections.isInterleaved := layout.trans layout'.symm
  simp only [step, produced, target]
  split
  · exact ⟨rfl, target, fun h => by cases h⟩
  · split
    · next reached => exact ⟨rfl, target, fun _ => place reached⟩
    · by_cases needMore : (InstructionReader.fetch s.reader.table s.reader.pending
          s.sections.instructions).outcome = .error .needMoreData
      · rw [InstructionReader.next_needMore needMore,
          InstructionReader.next_needMore (fetched ▸ needMore), same]
        refine ⟨unlocated_stalled _ _ _ _ _, target, ?_⟩
        exact fun complete => absurd complete (stalled_ne_complete _ _ _)
      · rw [InstructionReader.next_fetched needMore,
          InstructionReader.next_fetched (fetched ▸ needMore), ← fetched]
        generalize InstructionReader.fetch s.reader.table s.reader.pending
          s.sections.instructions = result at needMore
        obtain ⟨outcome, waiting, c⟩ := result
        simp only at needMore ⊢
        generalize hreader : { s.reader.mark s.sections.instructions with pending := waiting } =
          reader
        generalize hreader' : { t.reader.mark t.sections.instructions with pending := waiting } =
          reader'
        have tables : reader'.table = reader.table := by rw [← hreader, ← hreader']; exact table.symm
        have pendings : reader'.pending = reader.pending := by rw [← hreader, ← hreader']
        have layoutRead : (s.afterRead reader c).sections.isInterleaved = true := by
          rw [afterRead, Sections.isInterleaved_withInstructions]; exact layout
        have sections := congrArg BodyState.sections (sameRead reader reader' c)
        have targets : (s.afterRead reader c).target = (t.afterRead reader' c).target := target
        rcases outcome with stop | instruction
        · cases stop with
          | needMoreData => exact absurd rfl needMore
          | malformed error => exact ⟨rfl, targets, fun h => by cases h⟩
          | breach => exact ⟨rfl, targets, fun h => by cases h⟩
        · cases instruction with
          | none =>
            refine ⟨?_, targets, fun complete => ?_⟩
            · split <;> rfl
            · split at complete <;> cases complete
          | some instruction =>
            simp only
            rw [sameRead reader reader' c]
            exact alike_execute layoutRead tables pendings same

/-- Two runs that come to the same. -/
def SameEnd (p q : BodyState × BodyEnd) : Prop :=
  p.2.unlocated = q.2.unlocated ∧ p.1.target = q.1.target ∧
    (p.2 = .complete → p.1.sections = q.1.sections)

theorem alike_run (h : s.Alike context t) : SameEnd (s.run context) (t.run context) := by
  -- Along the first run. Each of its steps has a like step of the other run beside it.
  fun_induction run s context generalizing t with
  | case1 s s' stepped ih =>
    have first := alike_step h
    rw [stepped] at first
    cases steppedT : t.step context with
    | next t' =>
      rw [steppedT] at first
      rw [run_next steppedT]
      exact ih first
    | ended t' ending =>
      rw [steppedT] at first
      exact first.elim
  | case2 s s' ending stepped =>
    have last := alike_step h
    rw [stepped] at last
    cases steppedT : t.step context with
    | next t' =>
      rw [steppedT] at last
      exact last.elim
    | ended t' ending' =>
      rw [steppedT] at last
      rw [run_ended steppedT]
      exact last

/-! ## More input -/

theorem perform_extend (layout : s.sections.isInterleaved = true) (more : List UInt8)
    (there : ∀ part, (s.perform context instruction).2 ≠ .blocked part) :
    (s.extend more).perform (context.awaiting moreAvailable) instruction =
      ((s.perform context instruction).1.extend more, (s.perform context instruction).2) := by
  obtain ⟨reader, cache, sections, target⟩ := s
  cases sections with
  | separate _ _ _ => cases layout
  | interleaved c =>
    cases instruction with
    | add size =>
      simp only [perform, performAdd, extend, Sections.extend, Sections.data] at there ⊢
      cases read : Parser.bytes size c with
      | ok p =>
        obtain ⟨bytes, c'⟩ := p
        rw [(Parser.local_bytes size).extend_ok read]
        rfl
      | error stop =>
        rw [read] at there
        exact absurd rfl (there _)
    | run size =>
      simp only [perform, performRun, extend, Sections.extend, Sections.data] at there ⊢
      cases read : Parser.byte c with
      | ok p =>
        obtain ⟨byte, c'⟩ := p
        rw [Parser.local_byte.extend_ok read]
        rfl
      | error stop =>
        rw [read] at there
        exact absurd rfl (there _)
    | copy size mode =>
      simp only [perform, performCopy, produced, extend, Sections.extend, Sections.addresses,
        BodyContext.awaiting] at there ⊢
      cases read : cache.decode (context.space.segment.length +
          (target.size - context.space.windowStart)) mode c with
      | ok p =>
        obtain ⟨⟨address, cache'⟩, c'⟩ := p
        rw [(AddressCache.local_decode _ _ _).extend_ok read]
        simp only
        split <;> rfl
      | error stop =>
        rw [read] at there
        cases stop with
        | needMoreData => exact absurd rfl (there _)
        | malformed error =>
          rw [(AddressCache.local_decode _ _ _).extend_error read (fun h => by cases h)]
        | breach => rw [(AddressCache.local_decode _ _ _).extend_error read (fun h => by cases h)]

end BodyState

/-- What a step that is offered more input comes to: the same, unless it called for more. -/
def BodyStep.Extends (more : List UInt8) (step extended : BodyStep) : Prop :=
  match step with
  | next s => extended = .next (s.extend more)
  | ended s ending => ending ≠ .needMoreData → extended = .ended (s.extend more) ending

namespace BodyState

variable {s s' t : BodyState} {context : BodyContext} {instruction : Instruction}
  {more : List UInt8} {moreAvailable : Bool}

theorem execute_extend {before : Sections} (layout : s.sections.isInterleaved = true)
    (awaits : context.moreAvailable = true) (more : List UInt8) (moreAvailable : Bool) :
    BodyStep.Extends more (s.execute context before instruction)
      ((s.extend more).execute (context.awaiting moreAvailable) (before.extend more)
        instruction) := by
  have produced : (s.extend more).produced (context.awaiting moreAvailable) =
      s.produced context := rfl
  have offset : (before.extend more).instructions.offset = before.instructions.offset := by
    cases before <;> rfl
  have length : (context.awaiting moreAvailable).targetLength = context.targetLength := rfl
  simp only [execute, produced, offset, length]
  split
  · exact fun _ => rfl
  · split
    · exact fun _ => rfl
    · by_cases there : ∀ part, (s.perform context instruction).2 ≠ .blocked part
      · rw [perform_extend layout more there]
        generalize s.perform context instruction = performed at there
        obtain ⟨s', outcome⟩ := performed
        cases outcome with
        | done => rfl
        | blocked part => exact absurd rfl (there part)
        | failed stop => exact fun _ => rfl
      · simp only [ne_eq, Classical.not_forall, Classical.not_not] at there
        obtain ⟨part, blocked⟩ := there
        generalize s.perform context instruction = performed at blocked
        obtain ⟨s', outcome⟩ := performed
        simp only at blocked
        subst blocked
        simp only [BodyContext.stalled, awaits, if_true]
        exact fun final => absurd rfl final

theorem instructions_extend (layout : s.sections.isInterleaved = true) (more : List UInt8) :
    (s.extend more).sections.instructions = s.sections.instructions.extend more := by
  obtain ⟨reader, cache, sections, target⟩ := s
  cases sections with
  | separate _ _ _ => cases layout
  | interleaved c => rfl

theorem afterRead_extend (layout : s.sections.isInterleaved = true) (reader : InstructionReader)
    (c : Cursor) (more : List UInt8) :
    (s.extend more).afterRead reader (c.extend more) = (s.afterRead reader c).extend more := by
  obtain ⟨_, cache, sections, target⟩ := s
  cases sections with
  | separate _ _ _ => cases layout
  | interleaved c => rfl

@[simp] theorem isInterleaved_extend (sections : Sections) (more : List UInt8) :
    (sections.extend more).isInterleaved = sections.isInterleaved := by
  cases sections <;> rfl

theorem step_extend (layout : s.sections.isInterleaved = true)
    (awaits : context.moreAvailable = true) (more : List UInt8) (moreAvailable : Bool) :
    BodyStep.Extends more (s.step context)
      ((s.extend more).step (context.awaiting moreAvailable)) := by
  have produced : (s.extend more).produced (context.awaiting moreAvailable) =
      s.produced context := rfl
  have length : (context.awaiting moreAvailable).targetLength = context.targetLength := rfl
  have start : (context.awaiting moreAvailable).space.windowStart = context.space.windowStart := rfl
  have size : (s.extend more).target.size = s.target.size := rfl
  have reader : (s.extend more).reader = s.reader := rfl
  simp only [step, produced, length, start, size, reader, instructions_extend layout]
  split
  · exact fun _ => rfl
  · split
    · exact fun _ => rfl
    · by_cases needMore : (InstructionReader.fetch s.reader.table s.reader.pending
          s.sections.instructions).outcome = .error .needMoreData
      · rw [InstructionReader.next_needMore needMore]
        simp only [BodyContext.stalled, awaits, if_true]
        exact fun final => absurd rfl final
      · rw [InstructionReader.next_fetched needMore]
        by_cases ended : (InstructionReader.fetch s.reader.table s.reader.pending
            s.sections.instructions).outcome = .ok none
        · rw [ended]
          exact fun final => absurd rfl final
        · have extended := InstructionReader.fetch_extend needMore ended more
          have needMore' : (InstructionReader.fetch s.reader.table s.reader.pending
              (s.sections.instructions.extend more)).outcome ≠ .error .needMoreData := by
            rw [extended]
            exact needMore
          rw [InstructionReader.next_fetched needMore', extended]
          simp only
          generalize InstructionReader.fetch s.reader.table s.reader.pending
            s.sections.instructions = result at needMore ended
          obtain ⟨outcome, waiting, c⟩ := result
          simp only at needMore ended ⊢
          rcases outcome with stop | instruction
          · cases stop with
            | needMoreData => exact absurd rfl needMore
            | malformed error => exact fun _ => by rw [← afterRead_extend layout]; rfl
            | breach => exact fun _ => by rw [← afterRead_extend layout]; rfl
          · cases instruction with
            | none => exact absurd rfl ended
            | some instruction =>
              simp only
              rw [afterRead_extend layout]
              exact execute_extend ((Sections.isInterleaved_withInstructions _ _).trans layout)
                awaits _ _

theorem failed_ne_needMore {stop : ParseStop}
    (h : s.perform context instruction = (s', .failed stop)) : stop ≠ .needMoreData := by
  cases instruction with
  | add size =>
    simp only [perform, performAdd] at h
    split at h <;> cases h
  | run size =>
    simp only [perform, performRun] at h
    split at h <;> cases h
  | copy size mode =>
    simp only [perform, performCopy] at h
    split at h
    · split at h
      · cases h
      · cases h
        intro h
        cases h
    · cases h
    · next needsNoMore _ =>
      cases h
      exact needsNoMore

/-- A body waits for the rest of an instruction only if there may be more input, and then it puts the
instruction back. -/
theorem execute_stalled {before : Sections}
    (h : s.execute context before instruction = .ended s' .needMoreData) :
    s' = s.putBack before ∧ context.moreAvailable = true := by
  simp only [execute] at h
  split at h
  · cases h
  · split at h
    · cases h
    · split at h
      · cases h
      · next blocked =>
        obtain rfl := eq_of_blocked blocked
        obtain ⟨back, ended⟩ := BodyStep.ended.inj h
        simp only [BodyContext.stalled] at ended
        split at ended
        · next awaits => exact ⟨back.symm, awaits⟩
        · cases ended
      · next stop failed =>
        have needsNoMore := failed_ne_needMore failed
        cases stop with
        | needMoreData => exact absurd rfl needsNoMore
        | malformed error => cases h
        | breach => cases h

theorem awaits_of_step (h : s.step context = .ended s' .needMoreData) :
    context.moreAvailable = true := by
  simp only [step] at h
  split at h
  · cases h
  · split at h
    · cases h
    · split at h
      · have ended := (BodyStep.ended.inj h).2
        simp only [BodyContext.stalled] at ended
        split at ended
        · assumption
        · cases ended
      · next stop _ _ needsNoMore _ =>
        cases stop with
        | needMoreData => exact absurd rfl needsNoMore
        | malformed error => cases h
        | breach => cases h
      · have ended := (BodyStep.ended.inj h).2
        split at ended
        · assumption
        · cases ended
      · exact (execute_stalled h).2

theorem awaits_of_run (h : (s.run context).2 = .needMoreData) : context.moreAvailable = true := by
  fun_induction run s context with
  | case1 s s' stepped ih => exact ih h
  | case2 s s' ending stepped =>
    simp only at h
    subst h
    exact awaits_of_step stepped

/-- A step that called for more input has put back what it could not carry out, and changed nothing
but the past of its reader, or the reader has passed over slots without effect up to the end of what
there is. -/
theorem stalled_step (stalled : s.step context = .ended s' .needMoreData) :
    s.produced context ≠ context.targetLength ∧
      let fetched := InstructionReader.fetch s.reader.table s.reader.pending s.sections.instructions
      ((∃ reader : InstructionReader, reader.table = s.reader.table ∧
          reader.pending = s.reader.pending ∧ s' = { s with reader := reader }) ∨
        fetched.outcome = .ok none ∧ s' = s.afterRead
          { s.reader.mark s.sections.instructions with pending := fetched.pending }
          fetched.cursor) := by
  simp only [step] at stalled
  split at stalled
  · cases stalled
  · split at stalled
    · cases stalled
    · next unreached =>
      refine ⟨unreached, ?_⟩
      by_cases needMore : (InstructionReader.fetch s.reader.table s.reader.pending
          s.sections.instructions).outcome = .error .needMoreData
      · rw [InstructionReader.next_needMore needMore] at stalled
        obtain ⟨rfl, -⟩ := BodyStep.ended.inj stalled
        refine .inl ⟨s.reader.mark s.sections.instructions, rfl, rfl, ?_⟩
        rw [afterRead, Sections.withInstructions_instructions]
      · rw [InstructionReader.next_fetched needMore] at stalled
        generalize InstructionReader.fetch s.reader.table s.reader.pending
          s.sections.instructions = result at needMore stalled ⊢
        obtain ⟨outcome, waiting, c⟩ := result
        rcases outcome with stop | _ | instruction
        · cases stop with
          | needMoreData => exact absurd rfl needMore
          | malformed error => cases stalled
          | breach => cases stalled
        · exact .inr ⟨rfl, (BodyStep.ended.inj stalled).1.symm⟩
        · obtain ⟨rfl, -⟩ := execute_stalled stalled
          exact .inl ⟨s.reader.mark s.sections.instructions, rfl, rfl, rfl⟩

theorem alike_of_stalled (layout : s.sections.isInterleaved = true)
    (stalled : s.step context = .ended s' .needMoreData) (more : List UInt8)
    (moreAvailable : Bool) : (s.extend more).Alike (context.awaiting moreAvailable)
      (s'.extend more) := by
  have layout' : (s.extend more).sections.isInterleaved = true :=
    (isInterleaved_extend _ _).trans layout
  obtain ⟨unreached, ⟨reader, table, pending, rfl⟩ | ⟨ended, rfl⟩⟩ := stalled_step stalled
  · exact alike_withReader layout' table pending
  · refine ⟨⟨layout', ?_⟩, rfl, ?_, rfl, rfl, fun reached => absurd reached unreached⟩
    · rw [← afterRead_extend layout]
      exact (Sections.isInterleaved_withInstructions _ _).trans layout'
    · rw [← afterRead_extend layout, instructions_extend layout, afterRead,
        Sections.instructions_withInstructions]
      simp only [InstructionReader.pending_of_ended ended]
      exact InstructionReader.fetch_extend_end ended more

theorem step_extend_next (layout : s.sections.isInterleaved = true)
    (awaits : context.moreAvailable = true) (stepped : s.step context = .next s')
    (more : List UInt8) (moreAvailable : Bool) :
    (s.extend more).step (context.awaiting moreAvailable) = .next (s'.extend more) ∧
      s'.sections.isInterleaved = true := by
  have extended := step_extend layout awaits more moreAvailable
  have kept := leads_step s context
  rw [stepped] at extended kept
  exact ⟨extended, kept.layout.trans layout⟩

theorem run_extend (layout : s.sections.isInterleaved = true)
    (awaits : context.moreAvailable = true) (final : (s.run context).2 ≠ .needMoreData)
    (more : List UInt8) (moreAvailable : Bool) :
    (s.extend more).run (context.awaiting moreAvailable) =
      ((s.run context).1.extend more, (s.run context).2) := by
  fun_induction run s context with
  | case1 s s' stepped ih =>
    obtain ⟨extended, layout'⟩ := step_extend_next layout awaits stepped more moreAvailable
    rw [run_next extended]
    exact ih layout' final
  | case2 s s' ending stepped =>
    have extended := step_extend layout awaits more moreAvailable
    rw [stepped] at extended
    rw [run_ended (extended final)]

/-- A run that has called for more input goes on with it as it would have done at once. -/
theorem run_resume (layout : s.sections.isInterleaved = true)
    (awaits : context.moreAvailable = true) (stalled : (s.run context).2 = .needMoreData)
    (more : List UInt8) (moreAvailable : Bool) :
    SameEnd ((s.extend more).run (context.awaiting moreAvailable))
      (((s.run context).1.extend more).run (context.awaiting moreAvailable)) := by
  -- The steps before the last one are the same at once and in two goes. What the last one leaves is
  -- alike.
  fun_induction run s context with
  | case1 s s' stepped ih =>
    obtain ⟨extended, layout'⟩ := step_extend_next layout awaits stepped more moreAvailable
    rw [run_next extended]
    exact ih layout' stalled
  | case2 s s' ending stepped =>
    simp only at stalled
    subst stalled
    exact alike_run (alike_of_stalled layout stepped more moreAvailable)

end BodyState

end DeltaCoding
