import DeltaCoding.CodeTable.Standard
import DeltaCoding.Proofs.Instruction
import DeltaCoding.Tape
import Mathlib.Control.Monad.Basic

namespace DeltaCoding

namespace InstructionReader

variable {reader reader' : InstructionReader} {c c' : Cursor} {instruction : Instruction}
  {stop : ParseStop}

/-- The instructions up to a call that brings none, and what stopped that call, unless that is the end
of the stream. -/
def readAll (reader : InstructionReader) (c : Cursor) : List Instruction × Option ParseStop :=
  match _call : reader.next c with
  | (.ok (some instruction), reader', c') =>
    let (later, stop) := reader'.readAll c'
    (instruction :: later, stop)
  | (.ok none, _) => ([], none)
  | (.error stop, _) => ([], some stop)
termination_by slotBound reader.pending c
decreasing_by
  have nearer := @slotBound_next reader c instruction (by rw [_call])
  rwa [_call] at nearer

/-! ## Calls -/

theorem next_of_needMore (needs : (reader.next c).1 = .error .needMoreData) :
    reader.next c = (.error .needMoreData, reader.mark c, c) := by
  by_cases fetched : (fetch reader.table reader.pending c).outcome = .error .needMoreData
  · exact next_needMore fetched
  · rw [next_fetched fetched] at needs
    exact absurd needs fetched

@[simp] theorem lastOffset_next (reader : InstructionReader) (c : Cursor) :
    (reader.next c).2.1.lastOffset = c.offset := by
  simp only [next]
  split <;> rfl

@[simp] theorem unget_next (reader : InstructionReader) (c : Cursor) :
    (reader.next c).2.1.unget = reader.mark c := by
  simp only [next]
  split <;> rfl

theorem readAll_some (call : reader.next c = (.ok (some instruction), reader', c')) :
    reader.readAll c = (instruction :: (reader'.readAll c').1, (reader'.readAll c').2) := by
  rw [readAll]
  split
  · next call' =>
    rw [call] at call'
    cases call'
    rfl
  · next call' => rw [call] at call'; cases call'
  · next call' => rw [call] at call'; cases call'

theorem readAll_end (call : (reader.next c).1 = .ok none) : reader.readAll c = ([], none) := by
  rw [readAll]
  split
  · next call' => rw [call'] at call; cases call
  · rfl
  · next call' => rw [call'] at call; cases call

theorem readAll_stop (call : (reader.next c).1 = .error stop) :
    reader.readAll c = ([], some stop) := by
  rw [readAll]
  split
  · next call' => rw [call'] at call; cases call
  · next call' => rw [call'] at call; cases call
  · next call' => rw [call'] at call; cases call; rfl

/-! ## What reading depends on -/

theorem next_congr (table : reader.table = reader'.table) (pending : reader.pending = reader'.pending)
    (rest : c.rest = c'.rest) :
    (reader.next c).1 = (reader'.next c').1 ∧
      (reader.next c).2.1.pending = (reader'.next c').2.1.pending ∧
      (reader.next c).2.2.rest = (reader'.next c').2.2.rest := by
  have here (c : Cursor) : c = (⟨0, c.rest⟩ : Cursor).shift c.offset := by simp [Cursor.shift]
  rw [here c, here c', rest]
  simp only [next, table, pending, fetch_shift]
  split <;> exact ⟨rfl, rfl, rfl⟩

theorem readAll_congr (table : reader.table = reader'.table)
    (pending : reader.pending = reader'.pending) (rest : c.rest = c'.rest) :
    reader.readAll c = reader'.readAll c' := by
  have same := next_congr table pending rest
  fun_induction reader.readAll c generalizing reader' c' with
  | case1 reader c instruction next d call later stop all ih =>
    rw [call] at same
    obtain ⟨outcome, waits, left⟩ := same
    have tables : next.table = (reader'.next c').2.1.table := by
      rw [table_next, ← table, ← table_next reader c, call]
    have there : reader'.next c' = (.ok (some instruction), (reader'.next c').2) :=
      Prod.ext outcome.symm rfl
    rw [readAll_some there, ← ih tables waits left (next_congr tables waits left), all]
  | case2 reader c _ call =>
    rw [call] at same
    exact (readAll_end same.1.symm).symm
  | case3 reader c stop _ call =>
    rw [call] at same
    exact (readAll_stop same.1.symm).symm

theorem readAll_of_fetch (table : reader.table = reader'.table)
    (fetched : fetch reader.table reader.pending c = fetch reader'.table reader'.pending c') :
    reader.readAll c = reader'.readAll c' := by
  by_cases more : (fetch reader.table reader.pending c).outcome = .error .needMoreData
  · rw [readAll_stop (congrArg Prod.fst (next_needMore more)),
      readAll_stop (congrArg Prod.fst (next_needMore (fetched ▸ more)))]
  · have here := next_fetched more
    have there := next_fetched (fetched ▸ more)
    rw [← fetched] at there
    cases outcome : (fetch reader.table reader.pending c).outcome with
    | error stop =>
      rw [outcome] at here there
      rw [readAll_stop (congrArg Prod.fst here), readAll_stop (congrArg Prod.fst there)]
    | ok instruction =>
      rw [outcome] at here there
      cases instruction with
      | none => rw [readAll_end (congrArg Prod.fst here), readAll_end (congrArg Prod.fst there)]
      | some instruction =>
        rw [readAll_some here, readAll_some there]
        refine congrArg (fun all => (instruction :: all.1, all.2)) (readAll_congr ?_ ?_ rfl)
        · exact table
        · rfl

/-! ## More input -/

section MoreInput

variable (more : List UInt8)

theorem next_extend (h : (reader.next c).1 ≠ .error .needMoreData)
    (some : (reader.next c).1 ≠ .ok none) : reader.next (c.extend more) =
      ((reader.next c).1, (reader.next c).2.1, (reader.next c).2.2.extend more) := by
  have final : (fetch reader.table reader.pending c).outcome ≠ .error .needMoreData :=
    fun needs => h (congrArg Prod.fst (next_needMore needs))
  have fetched := next_fetched final
  rw [fetched] at some
  have whole := fetch_extend final some more
  have stays : (fetch reader.table reader.pending (c.extend more)).outcome ≠
      .error .needMoreData := by
    rw [whole]
    exact final
  rw [next_fetched stays, fetched, whole]
  rfl

theorem readAll_extend_some (call : reader.next c = (.ok (some instruction), reader', c')) :
    reader.readAll (c.extend more) = (instruction :: (reader'.readAll (c'.extend more)).1,
      (reader'.readAll (c'.extend more)).2) := by
  have whole := @next_extend reader c more (by simp [call]) (by simp [call])
  rw [call] at whole
  exact readAll_some whole

theorem readAll_extend_end (call : reader.next c = (.ok none, reader', c')) :
    reader.readAll (c.extend more) = reader'.readAll (c'.extend more) := by
  obtain ⟨ended, rfl, rfl⟩ := fetched_of_next call
  refine readAll_of_fetch rfl ?_
  rw [fetch_extend_end ended]
  simp only [pending_of_ended ended]
  rfl

theorem readAll_extend_needMore (call : reader.next c = (.error .needMoreData, reader', c')) :
    reader.readAll (c.extend more) = reader'.readAll (c'.extend more) := by
  rw [next_of_needMore (congrArg Prod.fst call)] at call
  cases call
  exact readAll_congr rfl rfl rfl

theorem readAll_extend_malformed {error : FormatError}
    (call : (reader.next c).1 = .error (.malformed error)) :
    reader.readAll (c.extend more) = ([], some (.malformed error)) := by
  have whole := @next_extend reader c more (by simp [call]) (by simp [call])
  exact readAll_stop ((congrArg Prod.fst whole).trans call)

end MoreInput

end InstructionReader

namespace Tape

variable {t t' : Tape} {n : Nat}

theorem origin_seek? (h : t.seek? n = some t') : t'.origin = t.origin := by
  rw [seek?] at h
  split at h
  · cases h
    rfl
  · cases h

theorem reaches_seek? (h : t.seek? n = some t') : t'.origin.Reaches t'.current := by
  rw [seek?] at h
  split at h
  · next has =>
    cases h
    exact Cursor.reaches_skip ((t.origin.has_iff n).1 has)
  · cases h

theorem seek?_offset (origin : t.origin.offset = 0) (reached : t.origin.Reaches t.current)
    (elsewhere : Cursor) : { t with current := elsewhere }.seek? t.current.offset = some t := by
  obtain ⟨⟨offset, bytes⟩, ⟨place, rest⟩⟩ := t
  obtain ⟨read, split, moved⟩ := reached
  simp only at origin split moved
  subst origin split moved
  have has : Cursor.has ⟨0, read ++ rest⟩ (0 + read.length) = true := by
    rw [Cursor.has_iff, List.length_append]
    omega
  rw [seek?, if_pos has, Cursor.skip]
  simp

end Tape

/-- A reader and the buffer that its opcodes arrive in. -/
structure OpcodeFeed where
  reader : InstructionReader
  tape : Tape
  /-- Offsets are places in the buffer, so that a reader's offset can be set again. -/
  origin : tape.origin.offset = 0
  reached : tape.origin.Reaches tape.current

namespace OpcodeFeed

variable {f f' : OpcodeFeed} {instruction : Instruction}

/-- Nothing has arrived yet. -/
def start (table : CodeTable) : OpcodeFeed :=
  ⟨.ofTable table, .ofBytes [], rfl, .refl _⟩

/-- Opcodes arrive behind those in the buffer, of which the ones that are read are dropped. -/
def feed (f : OpcodeFeed) (more : List UInt8) : OpcodeFeed :=
  ⟨f.reader, f.tape.feed more, rfl, .refl _⟩

def next (f : OpcodeFeed) : Except ParseStop (Option Instruction) × OpcodeFeed :=
  ((f.reader.next f.tape.current).1,
    { reader := (f.reader.next f.tape.current).2.1
      tape := { f.tape with current := (f.reader.next f.tape.current).2.2 }
      origin := f.origin
      reached := f.reached.trans (f.reader.reaches_next f.tape.current) })

/-- Puts back what the last call took, if its place is still in the buffer. -/
def unget? (f : OpcodeFeed) : Option OpcodeFeed :=
  match seek : f.tape.seek? f.reader.lastOffset with
  | none => none
  | some tape =>
    some
      { reader := f.reader.unget
        tape := tape
        origin := Tape.origin_seek? seek ▸ f.origin
        reached := Tape.reaches_seek? seek }

theorem unget?_eq {tape : Tape} (seek : f.tape.seek? f.reader.lastOffset = some tape) :
    ∃ back, f.unget? = some back ∧ back.reader = f.reader.unget ∧ back.tape = tape := by
  rw [unget?]
  split
  · next none => rw [seek] at none; cases none
  · next there =>
    rw [seek] at there
    cases there
    exact ⟨_, rfl, rfl, rfl⟩

/-! ## Any feeds and calls -/

/-- What a caller does next. -/
inductive Step where
  | feed (more : List UInt8)
  | call

/-- The opcodes that arrive, all together. -/
def fed : List Step → List UInt8
  | [] => []
  | .feed more :: steps => more ++ fed steps
  | .call :: steps => fed steps

/-- What is read by these feeds and calls and then by calls until one brings no instruction. Calls that
bring none before that are made in vain, unless a size is malformed: then it is over. -/
def readSteps : List Step → OpcodeFeed → List Instruction × Option ParseStop
  | [], f => f.reader.readAll f.tape.current
  | .feed more :: steps, f => readSteps steps (f.feed more)
  | .call :: steps, f =>
    match f.next with
    | (.ok (some instruction), f) =>
      let (later, stop) := readSteps steps f
      (instruction :: later, stop)
    | (.ok none, f) => readSteps steps f
    | (.error .needMoreData, f) => readSteps steps f
    | (.error stop, _) => ([], some stop)

/-- Whatever the steps, the instructions are those of all the opcodes together. -/
theorem readSteps_eq (steps : List Step) (f : OpcodeFeed) :
    readSteps steps f = f.reader.readAll (f.tape.current.extend (fed steps)) := by
  induction steps generalizing f with
  | nil => rw [readSteps, fed, Cursor.extend_nil]
  | cons step steps ih =>
    cases step with
    | feed more =>
      rw [readSteps, ih]
      refine InstructionReader.readAll_congr rfl rfl ?_
      exact List.append_assoc f.tape.current.rest more (fed steps)
    | call =>
      rw [readSteps, fed]
      split
      · next brought =>
        obtain ⟨outcome, rfl⟩ := Prod.mk.inj brought
        rw [ih]
        exact (InstructionReader.readAll_extend_some _ (Prod.ext outcome rfl)).symm
      · next ended =>
        obtain ⟨outcome, rfl⟩ := Prod.mk.inj ended
        rw [ih]
        exact (InstructionReader.readAll_extend_end _ (Prod.ext outcome rfl)).symm
      · next waits =>
        obtain ⟨outcome, rfl⟩ := Prod.mk.inj waits
        rw [ih]
        exact (InstructionReader.readAll_extend_needMore _ (Prod.ext outcome rfl)).symm
      · next stop _ goesOn stopped =>
        obtain ⟨outcome, -⟩ := Prod.mk.inj stopped
        cases stop with
        | needMoreData => exact absurd rfl goesOn
        | malformed error => exact (InstructionReader.readAll_extend_malformed _ outcome).symm
        | breach => exact absurd outcome (f.reader.answers_next _)

/-! ## Calls that take nothing and calls that are taken back -/

theorem next_needMore (needs : f.next.1 = .error .needMoreData) :
    f.next.2.tape = f.tape ∧ f.next.2.reader.pending = f.reader.pending := by
  have nothing := InstructionReader.next_of_needMore needs
  simp only [next, nothing]
  exact ⟨trivial, rfl⟩

theorem next_eq_of (reader : f'.reader.next f'.tape.current = f.reader.next f.tape.current)
    (origin : f'.tape.origin = f.tape.origin) : f'.next = f.next := by
  simp only [next, reader, origin]

theorem unget?_next (f : OpcodeFeed) : ∃ back, f.next.2.unget? = some back ∧ back.tape = f.tape ∧
    back.reader.pending = f.reader.pending ∧ back.next = f.next := by
  have seek : f.next.2.tape.seek? f.next.2.reader.lastOffset = some f.tape := by
    simp only [next, InstructionReader.lastOffset_next]
    exact Tape.seek?_offset f.origin f.reached _
  obtain ⟨back, restored, reader, tape⟩ := unget?_eq seek
  have marked : back.reader = f.reader.mark f.tape.current :=
    reader.trans (InstructionReader.unget_next f.reader f.tape.current)
  refine ⟨back, restored, tape, by rw [marked]; rfl, next_eq_of ?_ ?_⟩
  · rw [marked, tape]
    exact InstructionReader.next_past f.reader f.tape.current _ _
  · rw [tape]

/-- Feeding an opcode stream in pieces changes neither the instructions nor what stops the reader. A
call that asks for more leaves the buffer and the slot that waits as they were. A call that brings an
instruction can be taken back, and the next call is the same call again. -/
theorem reading_resumes :
    (∀ (table : CodeTable) (steps : List Step), readSteps steps (start table) =
      (InstructionReader.ofTable table).readAll (.ofBytes (fed steps))) ∧
    (∀ f after : OpcodeFeed, f.next = (.error .needMoreData, after) →
      after.tape = f.tape ∧ after.reader.pending = f.reader.pending) ∧
    ∀ (f after : OpcodeFeed) (instruction : Instruction),
      f.next = (.ok (some instruction), after) →
        ∃ back, after.unget? = some back ∧ back.tape = f.tape ∧
          back.reader.pending = f.reader.pending ∧ back.next = (.ok (some instruction), after) := by
  refine ⟨fun table steps => ?_, fun f after needs => ?_, fun f after instruction brought => ?_⟩
  · exact readSteps_eq steps (start table)
  · have nothing := next_needMore (congrArg Prod.fst needs)
    rwa [needs] at nothing
  · have back := unget?_next f
    rwa [brought] at back

/-- The size of the third instruction is cut off at first, and the call for it is made twice. -/
theorem reading_resumes_cut :
    let steps : List Step := [.feed [163, 1, 0x81], .call, .call, .call, .feed [0x00, 20], .call]
    let f := (start .standard).feed [1, 0x81]
    let whole := (start .standard).feed [163]
    readSteps steps (start .standard) = ([.add 1, .copy 4 0, .add 128, .copy 4 0], none) ∧
      f.next.1 = .error .needMoreData ∧ f.next.2.tape = f.tape ∧
      whole.next.1 = .ok (some (.add 1)) ∧
      ∃ back, whole.next.2.unget? = some back ∧ back.next = whole.next := by
  intro steps f whole
  obtain ⟨pieces, waits, back⟩ := reading_resumes
  have needs : f.next.1 = .error .needMoreData := by decide +kernel
  have brought : whole.next.1 = .ok (some (.add 1)) := by decide +kernel
  obtain ⟨back, restored, -, -, again⟩ := back whole whole.next.2 _ (Prod.ext brought rfl)
  refine ⟨?_, needs, (waits f f.next.2 (Prod.ext needs rfl)).1, brought, back, restored,
    again.trans (Prod.ext brought.symm rfl)⟩
  rw [pieces]
  decide +kernel

end OpcodeFeed

end DeltaCoding
