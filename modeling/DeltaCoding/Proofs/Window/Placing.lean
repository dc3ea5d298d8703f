import DeltaCoding.Proofs.Window.Completion
import DeltaCoding.Proofs.Window.Shifting

/-!
# Where a window fails

An error is found at the start of the instruction that cannot be carried out, and a body that has
stalled puts that instruction back. Only slots without effect are not put back: a reader passes over
them at the end of the input, so that the instruction behind them starts later than it would have
done. No reader does so if every opcode of its table stands for something (`CodeTable.Effective`).
Then a window that is resumed fails at the very place at which it would have failed at once
(`WindowDecoder.outcome_resume`).
-/

namespace DeltaCoding

namespace CodeTable

/-- Every opcode stands for an instruction. -/
def Effective (table : CodeTable) : Prop :=
  ∀ opcode, (table.entry opcode).slots ≠ []

theorem effective_standard : standard.Effective := by
  have all : standard.toList.all (fun p => !p.2.slots.isEmpty) = true := by decide +kernel
  intro opcode none
  have effect := List.all_eq_true.1 all (opcode, standard.entry opcode) (mem_toList.2 rfl)
  simp [none] at effect

end CodeTable

namespace InstructionReader

variable {table : CodeTable} {pending waiting : Option Slot} {slot : Slot} {c c₁ : Cursor}
  {reader reader' : InstructionReader}

theorem waits_nextSlot? (h : nextSlot? table pending c = some (slot, waiting, c₁)) :
    Waits table waiting := by
  rcases nextSlot?_cases h with ⟨-, rfl, -⟩ | ⟨opcode, -, -, -, rfl⟩
  · exact fun _ h => by cases h
  · exact waits_secondSlot? table opcode

theorem waits_fetch (table : CodeTable) (pending : Option Slot) (c : Cursor) :
    Waits table (fetch table pending c).pending := by
  fun_induction fetch table pending c with
  | case1 => exact fun _ h => by cases h
  | case2 pending c slot waiting c₁ next => exact waits_nextSlot? next
  | case3 pending c slot waiting c₁ next => exact waits_nextSlot? next
  | case4 pending c slot waiting c₁ next c₂ parsed ih => exact ih

/-- Where every opcode stands for something, a reader that comes to the end of the stream has been
there before. -/
theorem fetch_of_ended {maxMode : Nat} (valid : table.Valid maxMode) (effective : table.Effective)
    (waits : Waits table pending) (ended : (fetch table pending c).outcome = .ok none) :
    fetch table pending c = ⟨.ok none, pending, c⟩ := by
  fun_induction fetch table pending c with
  | case1 pending c next =>
    cases pending with
    | none => rfl
    | some slot => cases next
  | case2 => cases ended
  | case3 => cases ended
  | case4 pending c slot waiting c₁ next c₂ parsed ih =>
    exfalso
    have none : waiting = none := by
      rw [← pending_of_ended ended, ih (waits_nextSlot? next) ended]
    rcases nextSlot?_cases next with ⟨rfl, -, -⟩ | ⟨opcode, -, -, rfl, rfl⟩
    · exact absurd parsed (waits.parse_ne_none valid)
    · have noop := (Slot.noop_of_parse (valid.first opcode) parsed).1
      refine effective opcode ?_
      rw [slots_eq, noop, none]
      rfl

/-- Every opcode that the reader meets stands for something, and so does a slot that waits. -/
structure Steady (reader : InstructionReader) : Prop where
  valid : ∃ maxMode, reader.table.Valid maxMode
  effective : reader.table.Effective
  waits : Waits reader.table reader.pending

theorem Steady.of_same (h : reader.Steady) (table : reader'.table = reader.table)
    (waits : Waits reader.table reader'.pending) : reader'.Steady := by
  refine ⟨?_, ?_, ?_⟩
  · rw [table]
    exact h.valid
  · rw [table]
    exact h.effective
  · rw [table]
    exact waits

theorem Steady.reset (h : reader.Steady) : reader.reset.Steady :=
  h.of_same rfl fun _ h => by cases h

theorem Steady.next (h : reader.Steady) (c : Cursor) : (reader.next c).2.1.Steady := by
  refine h.of_same (table_next reader c) ?_
  simp only [InstructionReader.next]
  split
  · exact h.waits
  · exact waits_fetch _ _ _

end InstructionReader

/-! ## Bodies -/

namespace BodyState

variable {s s' : BodyState} {context : BodyContext}

theorem eq_of_stalled (steady : s.reader.Steady)
    (stalled : s.step context = .ended s' .needMoreData) :
    ∃ reader : InstructionReader, reader.table = s.reader.table ∧
      reader.pending = s.reader.pending ∧ s' = { s with reader := reader } := by
  obtain ⟨-, back | ⟨ended, rfl⟩⟩ := stalled_step stalled
  · exact back
  · obtain ⟨maxMode, valid⟩ := steady.valid
    rw [InstructionReader.fetch_of_ended valid steady.effective steady.waits ended]
    refine ⟨s.reader.mark s.sections.instructions, rfl, rfl, ?_⟩
    simp only [afterRead, Sections.withInstructions_instructions]
    rfl

theorem steady_step (steady : s.reader.Steady) (h : s.step context = .next s') :
    s'.reader.Steady := by
  obtain ⟨instruction, reader, c, read, performed, -⟩ := executed_of_step h
  have next := steady.next s.sections.instructions
  have kept := reader_perform (s.afterRead reader c) context instruction
  rw [performed] at kept
  rw [read] at next
  rw [kept]
  exact next

theorem steady_run (steady : s.reader.Steady)
    (ends : (s.run context).2 = .needMoreData ∨ (s.run context).2 = .complete) :
    (s.run context).1.reader.Steady := by
  fun_induction run s context with
  | case1 s s' stepped ih => exact ih (steady_step steady stepped) ends
  | case2 s s' ending stepped =>
    rcases ends with rfl | rfl
    · obtain ⟨reader, table, pending, rfl⟩ := eq_of_stalled steady stepped
      exact steady.of_same table (pending ▸ steady.waits)
    · obtain ⟨rfl, -⟩ := reached_of_complete stepped
      exact steady

theorem ending_resume (steady : s.reader.Steady) (layout : s.sections.isInterleaved = true)
    (awaits : context.moreAvailable = true) (stalled : (s.run context).2 = .needMoreData)
    (more : List UInt8) (moreAvailable : Bool) :
    ((s.extend more).run (context.awaiting moreAvailable)).2 =
      (((s.run context).1.extend more).run (context.awaiting moreAvailable)).2 := by
  -- Up to the step that stalls both are the same, and from there on they differ in the past of their
  -- readers only.
  fun_induction run s context with
  | case1 s s' stepped ih =>
    obtain ⟨extended, layout'⟩ := step_extend_next layout awaits stepped more moreAvailable
    rw [run_next extended]
    exact ih (steady_step steady stepped) layout' stalled
  | case2 s s' ending stepped =>
    simp only at stalled
    subst stalled
    obtain ⟨reader, table, pending, rfl⟩ := eq_of_stalled steady stepped
    change _ = (run { s.extend more with reader := reader } (context.awaiting moreAvailable)).2
    rcases run_past (s.extend more) (context.awaiting moreAvailable) table pending with
      same | ⟨ending, ended, ended'⟩
    · rw [same]
    · rw [ended, ended']

end BodyState

/-! ## Windows -/

namespace WindowDecoder

variable {d e : WindowDecoder} {context : WindowContext} {body : WindowBody} {c : Cursor}
  {target : Array UInt8} {remaining : Nat}

/-- No body of the decoder stalls at an opcode that stands for nothing: it has standard bodies only,
or all opcodes that it meets stand for something. -/
def Steady (d : WindowDecoder) : Prop :=
  (d.version = .standard ∧ d.phase = .header) ∨ d.reader.Steady

theorem reader_conclude (d : WindowDecoder) (body : WindowBody) (s : BodyState) (ending : BodyEnd)
    (c : Cursor) : (d.conclude body s ending c).decoder.reader = s.reader := by
  simp only [conclude]
  split
  · rfl
  · rfl
  · rfl
  · split <;> rfl

theorem steady_conclude {s : BodyState} {context : BodyContext} (steady : s.reader.Steady)
    {status : WindowStatus}
    (ok : (d.conclude body (s.run context).1 (s.run context).2 c).outcome = .ok status) :
    (d.conclude body (s.run context).1 (s.run context).2 c).decoder.reader.Steady := by
  rw [reader_conclude]
  refine BodyState.steady_run steady ?_
  cases status with
  | needMoreData => exact .inl (needMore_of_conclude ok)
  | complete start stop => exact .inr (complete_of_conclude ok).1

theorem steady_entered (steady : d.reader.Steady) {c' : Cursor}
    (h : d.entered? context c target = some (body, e, c')) : e.reader.Steady := by
  rcases reader_entered h with same | fresh
  · rw [same]
    exact steady
  · rw [fresh]
    exact steady.reset

theorem Steady.entered (steady : d.Steady) {c' : Cursor}
    (h : d.entered? context c target = some (body, e, c'))
    (layout : body.layout = .interleaved remaining) : e.reader.Steady := by
  rcases steady with ⟨standard, phase⟩ | steady
  · rcases entered_cases h with ⟨inside, -, -⟩ | ⟨-, header, s, -, -, rfl, -, -⟩
    · cases phase.symm.trans inside
    · rw [layout_enter, WindowHeader.isInterleaved, standard] at layout
      cases layout
  · exact steady_entered steady h

theorem Steady.decode (steady : d.Steady) {status : WindowStatus}
    (ok : (d.decode context c target).outcome = .ok status) :
    (d.decode context c target).decoder.Steady := by
  have kept := keeps_decode d context c target
  cases about : d.entered? context c target with
  | none =>
    obtain ⟨outcome, same, -⟩ := decode_not_entered about
    rw [same]
    exact steady
  | some p =>
    obtain ⟨body, e, c'⟩ := p
    rw [decode_entered about] at ok kept ⊢
    cases layout : body.layout with
    | standard lengths =>
      rcases steady with ⟨standard, -⟩ | steady
      · cases status with
        | needMoreData =>
          simp only [resume, layout] at ok
          exact absurd ok resumeStandard_final
        | complete start stop =>
          exact .inl ⟨kept.version.trans standard, inWindow_eq_false.1 (inWindow_resume ok)⟩
      · have steady' := steady_entered steady about
        simp only [resume, layout, resumeStandard] at ok ⊢
        cases there : splitSections? lengths c' with
        | none =>
          rw [there] at ok
          cases ok
        | some p =>
          rw [there] at ok
          exact .inr (steady_conclude steady' ok)
    | interleaved remaining =>
      have steady' := steady.entered about layout
      simp only [resume, layout, resumeInterleaved_eq] at ok ⊢
      exact .inr (steady_conclude steady' ok)

theorem outcome_conclude {p q : BodyState × BodyEnd} {layout layout' : BodyLayout} {c c' : Cursor}
    (same : BodyState.SameEnd p q) (ends : p.2 = q.2)
    (place : p.2 = .complete → layout = layout' ∧ c = c') :
    (d.conclude { body with layout := layout } p.1 p.2 c).outcome =
      (e.conclude { body with layout := layout' } q.1 q.2 c').outcome := by
  obtain ⟨s, ending⟩ := p
  obtain ⟨t, ending'⟩ := q
  obtain ⟨-, target, sections⟩ := same
  simp only at ends target sections place ⊢
  subst ends
  cases ending with
  | needMoreData => rfl
  | malformed offset error => rfl
  | breach => rfl
  | complete =>
    obtain ⟨rfl, rfl⟩ := place rfl
    simp only [conclude, sections rfl, target]
    cases WindowBody.checkComplete { body with layout := layout } t.sections t.target <;> rfl

theorem outcome_resumeInterleaved (steady : d.reader.Steady)
    (stalled : (d.resumeInterleaved context body remaining c target).outcome = .ok .needMoreData)
    (more : List UInt8) :
    let progress := d.resumeInterleaved context body remaining c target
    (d.resumeInterleaved context body remaining (c.extend more) target).outcome =
      (progress.decoder.decode context (progress.cursor.extend more) progress.target).outcome := by
  obtain ⟨needMore, more', moreAvailable, layout, layout', c₁, c₂, left, right, place⟩ :=
    resumeInterleaved_beside stalled more
  have resumed := BodyState.run_resume rfl rfl needMore more' moreAvailable
  have ends := @BodyState.ending_resume (d.bodyState (.interleaved c) target) _ steady rfl rfl
    needMore more' moreAvailable
  simp only [left, right]
  exact outcome_conclude resumed ends fun complete => place (resumed.2.2 complete)

/-- A call that waits for more input goes on when there is more to the outcome that it would have
come to at once. -/
theorem outcome_resume (steady : d.Steady)
    (stalled : (d.decode context c target).outcome = .ok .needMoreData) (more : List UInt8) :
    (d.decode context (c.extend more) target).outcome =
      ((d.decode context c target).decoder.decode context
        ((d.decode context c target).cursor.extend more)
        (d.decode context c target).target).outcome := by
  rcases stalled_decode stalled with waits | ⟨body, e, c', remaining, about, layout, resumes⟩
  · rw [waits]
  · have first := resumes []
    rw [Cursor.extend_nil, Cursor.extend_nil] at first
    rw [first] at stalled ⊢
    rw [resumes more]
    exact outcome_resumeInterleaved (steady.entered about layout) stalled more

end WindowDecoder

end DeltaCoding
