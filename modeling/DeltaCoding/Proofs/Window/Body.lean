import DeltaCoding.Proofs.AddressCache
import DeltaCoding.Proofs.Instruction
import DeltaCoding.Proofs.Window.Copy
import DeltaCoding.Window.Body

/-!
# The instructions of a body

Whatever a body does, it reads forward and keeps its code table, its cache sizes and its layout
(`BodyState.Leads`). A body that starts within the bounds of its window stays there and meets no
instruction that it has no answer for (`BodyState.Safe`). Both are shown of one step, and carried
over to a run by induction on its steps.
-/

namespace DeltaCoding

namespace Sections

@[simp] theorem withInstructions_instructions (sections : Sections) :
    sections.withInstructions sections.instructions = sections := by
  cases sections <;> rfl

@[simp] theorem isInterleaved_withInstructions (sections : Sections) (c : Cursor) :
    (sections.withInstructions c).isInterleaved = sections.isInterleaved := by
  cases sections <;> rfl

@[simp] theorem isInterleaved_withData (sections : Sections) (c : Cursor) :
    (sections.withData c).isInterleaved = sections.isInterleaved := by
  cases sections <;> rfl

@[simp] theorem isInterleaved_withAddresses (sections : Sections) (c : Cursor) :
    (sections.withAddresses c).isInterleaved = sections.isInterleaved := by
  cases sections <;> rfl

end Sections

namespace BodyState

variable {s s' : BodyState} {context : BodyContext} {instruction : Instruction}

/-! ## What a body keeps -/

/-- `s'` comes later in the same body than `s`. -/
structure Leads (s s' : BodyState) : Prop where
  table : s'.reader.table = s.reader.table
  sizes : s'.cache.sizes = s.cache.sizes
  layout : s'.sections.isInterleaved = s.sections.isInterleaved
  reaches : s.sections.instructions.Reaches s'.sections.instructions

theorem Leads.refl (s : BodyState) : s.Leads s :=
  ⟨rfl, rfl, rfl, .refl _⟩

theorem Leads.trans {a b c : BodyState} (hab : a.Leads b) (hbc : b.Leads c) : a.Leads c :=
  ⟨hbc.table.trans hab.table, hbc.sizes.trans hab.sizes, hbc.layout.trans hab.layout,
    hab.reaches.trans hbc.reaches⟩

theorem leads_perform (s : BodyState) (context : BodyContext) (instruction : Instruction) :
    s.Leads (s.perform context instruction).1 := by
  cases instruction with
  | add size =>
    simp only [perform, performAdd]
    split
    · next bytes c read =>
      exact ⟨rfl, rfl, Sections.isInterleaved_withData _ _,
        Sections.reaches_withData (Parser.reaches_bytes read)⟩
    · exact .refl _
  | run size =>
    simp only [perform, performRun]
    split
    · next byte c read =>
      exact ⟨rfl, rfl, Sections.isInterleaved_withData _ _,
        Sections.reaches_withData (Parser.reaches_byte read)⟩
    · exact .refl _
  | copy size mode =>
    simp only [perform, performCopy]
    split
    · next address cache c read =>
      have reaches := Sections.reaches_withAddresses (AddressCache.reaches_decode read)
      obtain ⟨-, rfl⟩ := AddressCache.decode_ok read
      split <;> exact ⟨rfl, rfl, Sections.isInterleaved_withAddresses _ _, reaches⟩
    · exact .refl _
    · exact .refl _

theorem eq_of_blocked {part : Section}
    (h : s.perform context instruction = (s', .blocked part)) : s' = s := by
  cases instruction with
  | add size =>
    simp only [perform, performAdd] at h
    split at h
    · cases h
    · cases h; rfl
  | run size =>
    simp only [perform, performRun] at h
    split at h
    · cases h
    · cases h; rfl
  | copy size mode =>
    simp only [perform, performCopy] at h
    split at h
    · split at h <;> cases h
    · cases h; rfl
    · cases h

theorem leads_afterRead {reader : InstructionReader} {c : Cursor}
    {outcome : Except ParseStop (Option Instruction)}
    (h : s.reader.next s.sections.instructions = (outcome, reader, c)) :
    s.Leads (s.afterRead reader c) := by
  have table := InstructionReader.table_next s.reader s.sections.instructions
  have reaches := InstructionReader.reaches_next s.reader s.sections.instructions
  rw [h] at table reaches
  refine ⟨table, rfl, Sections.isInterleaved_withInstructions _ _, ?_⟩
  rwa [afterRead, Sections.instructions_withInstructions]

end BodyState

/-- The state that a step leads to, whether or not the body goes on. -/
def BodyStep.state : BodyStep → BodyState
  | next s => s
  | ended s _ => s

namespace BodyState

variable {s s' : BodyState} {context : BodyContext} {instruction : Instruction}

theorem leads_execute {start : BodyState} (h : start.Leads s) :
    start.Leads (s.execute context start.sections instruction).state := by
  simp only [execute]
  split
  · exact h
  · split
    · exact h
    · have performed := leads_perform s context instruction
      split
      · next run =>
        rw [run] at performed
        exact h.trans performed
      · next run =>
        obtain rfl := eq_of_blocked run
        exact ⟨h.table, h.sizes, rfl, .refl _⟩
      · next run =>
        rw [run] at performed
        exact h.trans performed

theorem leads_step (s : BodyState) (context : BodyContext) : s.Leads (s.step context).state := by
  simp only [step]
  split
  · exact .refl _
  · split
    · exact .refl _
    · split
      · next read => exact leads_afterRead read
      · next read => exact leads_afterRead read
      · next read => exact leads_afterRead read
      · next read => exact leads_execute (leads_afterRead read)

theorem run_next (h : s.step context = .next s') : s.run context = s'.run context := by
  rw [run]
  split
  · next h' => rw [h] at h'; cases h'; rfl
  · next h' => rw [h] at h'; cases h'

theorem run_ended {ending : BodyEnd} (h : s.step context = .ended s' ending) :
    s.run context = (s', ending) := by
  rw [run]
  split
  · next h' => rw [h] at h'; cases h'
  · next h' => rw [h] at h'; cases h'; rfl

theorem leads_run (s : BodyState) (context : BodyContext) : s.Leads (s.run context).1 := by
  fun_induction run s context with
  | case1 s s' stepped ih =>
    have first := leads_step s context
    rw [stepped] at first
    exact first.trans ih
  | case2 s s' ending stepped =>
    have last := leads_step s context
    rw [stepped] at last
    exact last

/-! ## Safety -/

/-- The body is within the bounds of its window, and every mode of its cache can be resolved. -/
structure Safe (s : BodyState) (context : BodyContext) : Prop where
  resolvable : s.cache.sizes.resolvable = true
  within : context.space.Within
  starts : context.space.windowStart ≤ s.target.size
  room : s.target.size ≤ context.space.windowStart + context.targetLength

end BodyState

/-- The end is an answer, and it calls for more input only where there may be some. -/
structure BodyEnd.Sound (context : BodyContext) (ending : BodyEnd) : Prop where
  answers : ending ≠ .breach
  needMore : ending = .needMoreData → context.moreAvailable = true

theorem BodyEnd.sound_malformed {context : BodyContext} {offset : Nat} {error : FormatError} :
    (malformed offset error).Sound context :=
  ⟨(fun h => by cases h), fun h => by cases h⟩

theorem BodyContext.sound_stalled (context : BodyContext) (interleaved : Bool) (offset : Nat)
    (part : Section) : (context.stalled interleaved offset part).Sound context := by
  simp only [stalled]
  split
  · next more => exact ⟨(fun h => by cases h), fun _ => more⟩
  · exact BodyEnd.sound_malformed

/-- The step stays within the bounds of the window, and if the body ends, it ends soundly. -/
def BodyStep.Safe (context : BodyContext) : BodyStep → Prop
  | next s => s.Safe context
  | ended s ending => s.Safe context ∧ ending.Sound context

namespace BodyState

variable {s s' : BodyState} {context : BodyContext} {instruction : Instruction}

theorem size_of_done (safe : s.Safe context)
    (h : s.perform context instruction = (s', .done)) :
    s'.target.size = s.target.size + instruction.size := by
  cases instruction with
  | add size =>
    simp only [perform, performAdd] at h
    split at h
    · next bytes c read =>
      cases h
      have length : bytes.length = size := by
        simp only [Parser.bytes] at read
        split at read
        · next enough =>
          cases read
          rw [List.length_take, Nat.min_eq_left ((Cursor.has_iff _ _).1 enough)]
        · cases read
      rw [← Array.length_toList, Array.appendList_eq_append, Array.toList_appendList,
        List.length_append, length, Array.length_toList]
      rfl
    · cases h
  | run size =>
    simp only [perform, performRun] at h
    split at h
    · cases h
      simp [Instruction.size]
    · cases h
  | copy size mode =>
    simp only [perform, performCopy] at h
    split at h
    · next address cache c read =>
      obtain ⟨before, -⟩ := AddressCache.decode_ok read
      obtain ⟨target, copied, grown⟩ :=
        @AddressSpace.copy?_size context.space address size s.target safe.within safe.starts before
      rw [copied] at h
      cases h
      exact grown
    · cases h
    · cases h

/-- An instruction fails only for what is wrong with it, and then it changes nothing. -/
theorem malformed_of_failed (safe : s.Safe context) {stop : ParseStop}
    (h : s.perform context instruction = (s', .failed stop)) :
    s' = s ∧ ∃ error, stop = .malformed error := by
  cases instruction with
  | add size =>
    simp only [perform, performAdd] at h
    split at h <;> cases h
  | run size =>
    simp only [perform, performRun] at h
    split at h <;> cases h
  | copy size mode =>
    have answers := AddressCache.answers_decode safe.resolvable
      (context.space.segment.length + s.produced context) mode s.sections.addresses
    simp only [perform, performCopy] at h
    split at h
    · next address cache c read =>
      obtain ⟨before, -⟩ := AddressCache.decode_ok read
      obtain ⟨target, copied, -⟩ :=
        @AddressSpace.copy?_size context.space address size s.target safe.within safe.starts before
      rw [copied] at h
      cases h
    · cases h
    · next needsNoMore read =>
      cases h
      refine ⟨rfl, ?_⟩
      cases stop with
      | needMoreData => exact absurd rfl needsNoMore
      | malformed error => exact ⟨error, rfl⟩
      | breach => exact absurd read answers

theorem safe_execute {before : Sections} (safe : s.Safe context) :
    (s.execute context before instruction).Safe context := by
  have room := safe.room
  have starts := safe.starts
  have inside : ¬ context.targetLength < s.produced context := by
    simp only [produced]
    omega
  simp only [execute]
  rw [if_neg inside]
  split
  · exact ⟨safe, BodyEnd.sound_malformed⟩
  · next fits =>
    simp only [produced] at fits
    have kept := leads_perform s context instruction
    split
    · next s' run =>
      rw [run] at kept
      have size := size_of_done safe run
      refine ⟨kept.sizes ▸ safe.resolvable, safe.within, ?_, ?_⟩ <;> omega
    · next run =>
      obtain rfl := eq_of_blocked run
      exact ⟨⟨safe.resolvable, safe.within, starts, room⟩, context.sound_stalled _ _ _⟩
    · next run =>
      obtain ⟨rfl, error, rfl⟩ := malformed_of_failed safe run
      exact ⟨safe, BodyEnd.sound_malformed⟩

theorem safe_step (safe : s.Safe context) : (s.step context).Safe context := by
  have answers := InstructionReader.answers_next s.reader s.sections.instructions
  have kept (reader : InstructionReader) (c : Cursor) : (s.afterRead reader c).Safe context :=
    ⟨safe.resolvable, safe.within, safe.starts, safe.room⟩
  simp only [step]
  rw [if_neg (Nat.not_lt.2 safe.starts)]
  split
  · exact ⟨safe, (fun h => by cases h), fun h => by cases h⟩
  · split
    · exact ⟨kept _ _, context.sound_stalled _ _ _⟩
    · next stop reader c needsNoMore read =>
      refine ⟨kept _ _, ?_⟩
      rw [read] at answers
      cases stop with
      | needMoreData => exact absurd rfl needsNoMore
      | malformed error => exact BodyEnd.sound_malformed
      | breach => exact absurd rfl answers
    · refine ⟨kept _ _, ?_⟩
      split
      · next more => exact ⟨(fun h => by cases h), fun _ => more⟩
      · exact BodyEnd.sound_malformed
    · exact safe_execute (kept _ _)

/-- A run that starts within the bounds of its window stays there and ends soundly. -/
theorem safe_run (safe : s.Safe context) :
    (s.run context).1.Safe context ∧ (s.run context).2.Sound context := by
  -- What each step keeps holds at the end, and the last step ends the run soundly.
  fun_induction run s context with
  | case1 s s' stepped ih =>
    have first := safe_step safe
    rw [stepped] at first
    exact ih first
  | case2 s s' ending stepped =>
    have last := safe_step safe
    rw [stepped] at last
    exact last

/-! ## Completion -/

theorem stalled_ne_complete (interleaved : Bool) (offset : Nat) (part : Section) :
    context.stalled interleaved offset part ≠ .complete := by
  simp only [BodyContext.stalled]
  split <;> rintro ⟨⟩

theorem ofStop_ne_complete (offset : Nat) (stop : ParseStop) :
    BodyEnd.ofStop offset stop ≠ .complete := by
  cases stop <;> rintro ⟨⟩

theorem ne_complete_of_execute {before : Sections} {ending : BodyEnd}
    (h : s.execute context before instruction = .ended s' ending) : ending ≠ .complete := by
  simp only [execute] at h
  split at h
  · obtain ⟨-, rfl⟩ := BodyStep.ended.inj h
    intro h
    cases h
  · split at h
    · obtain ⟨-, rfl⟩ := BodyStep.ended.inj h
      intro h
      cases h
    · split at h
      · cases h
      · obtain ⟨-, rfl⟩ := BodyStep.ended.inj h
        exact stalled_ne_complete _ _ _
      · obtain ⟨-, rfl⟩ := BodyStep.ended.inj h
        exact ofStop_ne_complete _ _

theorem reached_of_complete (h : s.step context = .ended s' .complete) :
    s' = s ∧ s.produced context = context.targetLength ∧
      context.space.windowStart ≤ s.target.size := by
  simp only [step] at h
  split at h
  · cases h
  · next starts =>
    split at h
    · next reached =>
      cases h
      exact ⟨rfl, reached, Nat.le_of_not_lt starts⟩
    · split at h
      · exact absurd (BodyStep.ended.inj h).2 (stalled_ne_complete _ _ _)
      · exact absurd (BodyStep.ended.inj h).2 (ofStop_ne_complete _ _)
      · have ended := (BodyStep.ended.inj h).2
        split at ended <;> cases ended
      · exact absurd rfl (ne_complete_of_execute h)

theorem step_reached (reached : s.produced context = context.targetLength)
    (starts : context.space.windowStart ≤ s.target.size) :
    s.step context = .ended s .complete := by
  simp only [step]
  rw [if_neg (Nat.not_lt.2 starts), if_pos reached]

theorem produced_of_complete (h : (s.run context).2 = .complete) :
    (s.run context).1.produced context = context.targetLength := by
  fun_induction run s context with
  | case1 s s' stepped ih => exact ih h
  | case2 s s' ending stepped =>
    simp only at h
    subst h
    obtain ⟨rfl, reached, -⟩ := reached_of_complete stepped
    exact reached

end BodyState

end DeltaCoding
