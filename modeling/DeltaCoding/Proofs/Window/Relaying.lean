import DeltaCoding.Proofs.Window.Completion

/-!
# Laying out a body anew

What a body consumes for an instruction is a `Portion`: opcodes with a size, and then literal bytes
or an address. A standard body keeps the parts of its portions in three sections, an interleaved one
has its portions one behind the other. The instructions do the same with the same portions in either
layout (`BodyState.consumes_run`), so that a complete window can be written in the other layout and
is complete as well, with the same target (`WindowDecoder.feed_relaid`).
-/

namespace DeltaCoding

/-- What an instruction calls for behind its opcode and size. -/
inductive Operand where
  /-- The bytes of an ADD, or the byte of a RUN. -/
  | literal (bytes : List UInt8)
  /-- The address of a COPY. -/
  | address (bytes : List UInt8)

/-- What is consumed for one instruction: the opcodes up to it that have not been consumed yet, its
size if that is written, and what it calls for. -/
structure Portion where
  code : List UInt8
  operand : Operand

def Instruction.Calls : Instruction → Operand → Prop
  | .add _, .literal _ => True
  | .run _, .literal _ => True
  | .copy _ _, .address _ => True
  | _, _ => False

def Operand.laidOut (interleaved : Bool) : Operand → SectionBytes
  | literal bytes => .literal interleaved bytes
  | address bytes => .address interleaved bytes

def Portion.laidOut (interleaved : Bool) (portion : Portion) : SectionBytes :=
  .code portion.code ++ portion.operand.laidOut interleaved

/-- The portions in this order: all in one stream, or each part in its own section. -/
def layOut (interleaved : Bool) : List Portion → SectionBytes
  | [] => .none
  | portion :: rest => portion.laidOut interleaved ++ layOut interleaved rest

theorem layOut_stream (portions : List Portion) :
    (layOut true portions).data = [] ∧ (layOut true portions).addresses = [] := by
  induction portions with
  | nil => exact ⟨rfl, rfl⟩
  | cons portion rest ih =>
    obtain ⟨code, operand⟩ := portion
    cases operand <;> exact ih

/-! ## Instructions -/

namespace InstructionReader

variable {table : CodeTable} {pending waiting : Option Slot} {slot : Slot} {c c₁ : Cursor}

theorem nextSlot?_local (h : nextSlot? table pending c = some (slot, waiting, c₁)) :
    ∃ bytes, c.Takes bytes c₁ ∧
      ∀ d d', d.Takes bytes d' → nextSlot? table pending d = some (slot, waiting, d') := by
  rcases nextSlot?_cases h with ⟨rfl, rfl, rfl⟩ | ⟨opcode, rfl, takes, rfl, rfl⟩
  · refine ⟨[], .refl _, fun d d' there => ?_⟩
    rw [there.unique (.refl _)]
    rfl
  · exact ⟨[opcode], takes, fun d d' there => nextSlot?_opcode there⟩

theorem fetch_local {instruction : Instruction}
    (h : (fetch table pending c).outcome = .ok (some instruction)) :
    ∃ code, c.Takes code (fetch table pending c).cursor ∧ ∀ d d', d.Takes code d' →
      fetch table pending d = ⟨.ok (some instruction), (fetch table pending c).pending, d'⟩ := by
  fun_induction fetch table pending c with
  | case1 => cases h
  | case2 => cases h
  | case3 pending c slot waiting c₁ next instruction' c₂ parsed =>
    cases h
    obtain ⟨opcode, first, next'⟩ := nextSlot?_local next
    obtain ⟨size, second, reads⟩ := slot.local_parse.ok parsed
    refine ⟨opcode ++ size, first.trans second, fun d d' there => ?_⟩
    obtain ⟨d₁, there₁, there₂⟩ := there.split
    exact fetch_some (next' _ _ there₁) (reads _ _ there₂)
  | case4 pending c slot waiting c₁ next c₂ parsed ih =>
    obtain ⟨opcode, first, next'⟩ := nextSlot?_local next
    obtain ⟨nothing, second, reads⟩ := slot.local_parse.ok parsed
    obtain ⟨code, third, fetched⟩ := ih h
    refine ⟨opcode ++ (nothing ++ code), first.trans (second.trans third), fun d d' there => ?_⟩
    obtain ⟨d₁, there₁, there⟩ := there.split
    obtain ⟨d₂, there₂, there₃⟩ := there.split
    rw [fetch_skip (next' _ _ there₁) (reads _ _ there₂)]
    exact fetched _ _ there₃

theorem next_local {reader reader' : InstructionReader} {c' : Cursor} {instruction : Instruction}
    (h : reader.next c = (.ok (some instruction), reader', c')) :
    ∃ code, c.Takes code c' ∧ ∀ (other : InstructionReader) (d d' : Cursor),
      other.table = reader.table → other.pending = reader.pending → d.Takes code d' →
        ∃ other', other.next d = (.ok (some instruction), other', d') ∧
          other'.table = reader'.table ∧ other'.pending = reader'.pending := by
  obtain ⟨taken, rfl, rfl⟩ := fetched_of_next h
  obtain ⟨code, takes, there⟩ := fetch_local taken
  refine ⟨code, takes, fun other d d' table pending bytes => ?_⟩
  have fetched' : fetch other.table other.pending d =
      ⟨.ok (some instruction), (fetch reader.table reader.pending c).pending, d'⟩ := by
    rw [table, pending]
    exact there d d' bytes
  have taken' := @next_fetched other d (by rw [fetched']; rintro ⟨⟩)
  rw [fetched'] at taken'
  exact ⟨_, taken', table, rfl⟩

end InstructionReader

/-! ## Bodies -/

namespace BodyState

variable {s s' t : BodyState} {context context' : BodyContext} {instruction : Instruction}
  {portion : Portion} {portions : List Portion} {sections' : Sections}

/-- The next instruction is carried out, and consumes the portion. -/
structure CarriesOut (s : BodyState) (context : BodyContext) (portion : Portion) (s' : BodyState) :
    Prop where
  step : s.step context = .next s'
  consumes : ∃ instruction reader c,
    s.reader.next s.sections.instructions = (.ok (some instruction), reader, c) ∧
      s.sections.instructions.Takes portion.code c ∧ instruction.Calls portion.operand ∧
      (s.sections.withInstructions c).Takes (portion.operand.laidOut s.sections.isInterleaved)
        s'.sections

/-- Instructions are carried out one after the other, and consume the portions in this order. -/
inductive Consumes (context : BodyContext) : BodyState → List Portion → BodyState → Prop where
  | none (s : BodyState) : Consumes context s [] s
  | next {s s₁ s' : BodyState} {portion : Portion} {rest : List Portion}
      (first : s.CarriesOut context portion s₁) (others : Consumes context s₁ rest s') :
      Consumes context s (portion :: rest) s'

theorem CarriesOut.takes (h : s.CarriesOut context portion s') :
    s.sections.Takes (portion.laidOut s.sections.isInterleaved) s'.sections := by
  obtain ⟨-, instruction, reader, c, -, code, -, operand⟩ := h
  exact (Sections.takes_withInstructions code).trans operand

theorem Consumes.takes (h : Consumes context s portions s') :
    s.sections.Takes (layOut s.sections.isInterleaved portions) s'.sections := by
  induction h with
  | none s => exact Sections.takes_none _
  | next first others ih =>
    rw [first.takes.layout] at ih
    exact first.takes.trans ih

/-- The bodies are about to do the same, wherever they read it. -/
structure Level (s t : BodyState) : Prop where
  table : t.reader.table = s.reader.table
  pending : t.reader.pending = s.reader.pending
  cache : t.cache = s.cache
  target : t.target = s.target

theorem perform_local (h : s.perform context instruction = (s', .done)) :
    ∃ operand, instruction.Calls operand ∧
      s.sections.Takes (operand.laidOut s.sections.isInterleaved) s'.sections ∧
      ∀ {t : BodyState} {context' : BodyContext} {sections' : Sections}, t.cache = s.cache →
        t.target = s.target → context'.space = context.space →
        t.sections.Takes (operand.laidOut t.sections.isInterleaved) sections' →
          t.perform context' instruction = (⟨t.reader, s'.cache, sections', s'.target⟩, .done) := by
  cases instruction with
  | add size =>
    simp only [perform, performAdd] at h
    split at h
    · next bytes c read =>
      cases h
      obtain ⟨rfl, takes⟩ := Parser.takes_bytes read
      refine ⟨.literal bytes, trivial, Sections.takes_withData takes, fun cache target _ there => ?_⟩
      obtain ⟨c', data, rfl⟩ := Sections.takes_literal there
      simp only [perform, performAdd, Parser.reads_bytes bytes _ _ data, target, cache]
    · cases h
  | run size =>
    simp only [perform, performRun] at h
    split at h
    · next byte c read =>
      cases h
      refine ⟨.literal [byte], trivial, Sections.takes_withData (Parser.takes_byte read),
        fun cache target _ there => ?_⟩
      obtain ⟨c', data, rfl⟩ := Sections.takes_literal there
      simp only [perform, performRun, Parser.reads_byte byte _ _ data, target, cache]
    · cases h
  | copy size mode =>
    simp only [perform, performCopy] at h
    split at h
    · next address cache c read =>
      obtain ⟨bytes, takes, reads⟩ := (AddressCache.local_decode _ _ _).ok read
      split at h
      · next copied =>
        cases h
        refine ⟨.address bytes, trivial, Sections.takes_withAddresses takes,
          fun cache target space there => ?_⟩
        obtain ⟨c', address, rfl⟩ := Sections.takes_address there
        simp only [perform, performCopy, produced, cache, target, space] at reads ⊢
        rw [reads _ _ address]
        simp only [copied]
      · cases h
    · cases h
    · cases h

theorem step_of_perform {reader : InstructionReader} {c : Cursor}
    (starts : context.space.windowStart ≤ s.target.size)
    (unreached : s.produced context ≠ context.targetLength)
    (read : s.reader.next s.sections.instructions = (.ok (some instruction), reader, c))
    (fits : s.produced context + instruction.size ≤ context.targetLength)
    (performed : (s.afterRead reader c).perform context instruction = (s', .done)) :
    s.step context = .next s' := by
  have produced : (s.afterRead reader c).produced context = s.produced context := rfl
  simp only [step]
  rw [if_neg (Nat.not_lt.2 starts), if_neg unreached, read]
  simp only [execute, produced]
  rw [if_neg (by omega), if_neg (by omega), performed]

/-- A step is taken in the same way by a body that finds the portion of its instruction in a layout of
its own. -/
theorem carriesOut_step (h : s.step context = .next s') :
    ∃ portion, s.CarriesOut context portion s' ∧
      ∀ {t : BodyState} {context' : BodyContext} {sections' : Sections}, s.Level t →
        context'.space = context.space → context'.targetLength = context.targetLength →
        t.sections.Takes (portion.laidOut t.sections.isInterleaved) sections' →
          ∃ t', t.step context' = .next t' ∧ t'.sections = sections' ∧ s'.Level t' := by
  obtain ⟨instruction, reader, c, read, performed, starts, unreached, fits⟩ := executed_of_step h
  obtain ⟨code, takes, reads⟩ := InstructionReader.next_local read
  obtain ⟨operand, calls, supplied, performs⟩ := perform_local performed
  rw [afterRead, Sections.isInterleaved_withInstructions] at supplied
  refine ⟨⟨code, operand⟩, ⟨h, instruction, reader, c, read, takes, calls, supplied⟩, ?_⟩
  intro t context' sections' level space length there
  obtain ⟨between, opcode, rest⟩ := there.split
  obtain ⟨c', found, rfl⟩ := Sections.takes_code opcode
  obtain ⟨reader', read', table, pending⟩ := reads t.reader _ _ level.table level.pending found
  have produced : t.produced context' = s.produced context := by
    simp only [BodyState.produced, level.target, space]
  rw [← Sections.isInterleaved_withInstructions t.sections c'] at rest
  have performed' := @performs (t.afterRead reader' c') context' sections' level.cache level.target
    space rest
  have reader_eq : s'.reader = reader := (congrArg (fun p => p.1.reader) performed).symm.trans
    (reader_perform _ _ _)
  refine ⟨_, step_of_perform ?_ ?_ read' ?_ performed', rfl, ?_, ?_, rfl, rfl⟩
  · rwa [level.target, space]
  · rwa [produced, length]
  · rwa [produced, length]
  · rw [reader_eq]
    exact table
  · rw [reader_eq]
    exact pending

/-- A body that runs to its end does so in any layout that holds its portions, and makes the same. -/
theorem consumes_run (h : s.run context = (s', .complete)) :
    ∃ portions, Consumes context s portions s' ∧
      ∀ {t : BodyState} {context' : BodyContext} {sections' : Sections}, s.Level t →
        context'.space = context.space → context'.targetLength = context.targetLength →
        t.sections.Takes (layOut t.sections.isInterleaved portions) sections' →
          ∃ t', t.run context' = (t', .complete) ∧ t'.sections = sections' ∧ s'.Level t' := by
  -- Along the steps. The other body takes each of them too, and ends where this one does.
  fun_induction run s context with
  | case1 s s₁ stepped ih =>
    obtain ⟨portion, first, follows⟩ := carriesOut_step stepped
    obtain ⟨rest, others, followOthers⟩ := ih h
    refine ⟨portion :: rest, .next first others, ?_⟩
    intro t context' sections' level space length there
    obtain ⟨between, here, behind⟩ := there.split
    obtain ⟨t₁, stepped', rfl, level₁⟩ := follows level space length here
    rw [← here.layout] at behind
    rw [run_next stepped']
    exact followOthers level₁ space length behind
  | case2 s last ending stepped =>
    cases h
    obtain ⟨rfl, reached, starts⟩ := reached_of_complete stepped
    refine ⟨[], .none _, ?_⟩
    intro t context' sections' level space length there
    obtain rfl := there.unique (Sections.takes_none _)
    have ended : t.step context' = .ended t .complete := by
      apply step_reached
      · simp only [produced, level.target, space, length] at reached ⊢
        exact reached
      · rwa [level.target, space]
    exact ⟨t, run_ended ended, rfl, level⟩

end BodyState

/-! ## Windows -/

/-- The header of the same window over other sections. -/
def WindowHeader.relaid (header : WindowHeader) (bytes : SectionBytes) : WindowHeader :=
  { header with
    sections := ⟨bytes.data.length, bytes.instructions.length, bytes.addresses.length,
      header.sections.checksum⟩ }

theorem WindowHeader.isInterleaved_relaid {version : Version} (header : WindowHeader)
    (extensions : version.hasExtensions = true) {portions : List Portion}
    (nonempty : (layOut false portions).data ≠ [] ∨ (layOut false portions).addresses ≠ [])
    (interleaved : Bool) :
    (header.relaid (layOut interleaved portions)).isInterleaved version = interleaved := by
  simp only [isInterleaved, extensions, relaid, SectionLengths.instructionsOnly, Bool.true_and]
  cases interleaved with
  | true =>
    obtain ⟨data, addresses⟩ := layOut_stream portions
    rw [data, addresses]
    rfl
  | false =>
    rw [Bool.and_eq_false_iff, beq_eq_false_iff_ne, beq_eq_false_iff_ne]
    exact nonempty.imp (List.length_eq_zero_iff.not.2) (List.length_eq_zero_iff.not.2)

namespace WindowDecoder

variable {d : WindowDecoder} {context : WindowContext} {c c' : Cursor} {history : Array UInt8}
  {header : WindowHeader} {portions : List Portion}

/-- The body at `c` is made of the portions. Its instructions consume them in this order, and with
the last one the target is complete. -/
structure Consumes (d : WindowDecoder) (context : WindowContext) (history : Array UInt8)
    (header : WindowHeader) (c c' : Cursor) (target : Array UInt8) (portions : List Portion) :
    Prop where
  order : ∃ sections moreAvailable s,
    sectionsAt? (d.enter header history.size).1.layout c = some sections ∧
      BodyState.Consumes (context.bodyContext (d.enter header history.size).1 moreAvailable)
        ((d.enter header history.size).2.bodyState sections history) portions s ∧
      s.produced (context.bodyContext (d.enter header history.size).1 moreAvailable) =
        header.targetLength ∧ s.target = target
  describes : header.sections.Describes (layOut (header.isInterleaved d.version) portions)
  takes : c.Takes (layOut (header.isInterleaved d.version) portions).toList c'

theorem consumes_decode (phase : d.phase = .header) {start stop : Nat}
    (complete : (d.decode context c history).outcome = .ok (.complete start stop)) :
    ∃ header s portions, d.readHeader context c = (.ok header, s) ∧
      d.Consumes context history header s.cursor (d.decode context c history).cursor
        (d.decode context c history).target portions ∧
      (d.enter header history.size).1.checkChecksum (d.decode context c history).target = .ok () ∧
      start = history.size ∧ stop = (d.decode context c history).target.size ∧
      ∀ interleaved, (d.enter (header.relaid (layOut interleaved portions)) history.size).2.Exhausts
        context (d.enter (header.relaid (layOut interleaved portions)) history.size).1 history
        (d.decode context c history).target interleaved (layOut interleaved portions) := by
  obtain ⟨header, s, sections, moreAvailable, final, read, finished⟩ := finished_decode phase complete
  obtain ⟨portions, order, follows⟩ := BodyState.consumes_run finished.run
  obtain ⟨describes, takes⟩ := finished.taken _ order.takes
  rw [bodyState, finished.layout] at describes takes
  have reached := BodyState.produced_of_complete (congrArg Prod.snd finished.run)
  rw [finished.run] at reached
  have outcome := finished.outcome.symm.trans complete
  cases outcome
  rw [finished.target]
  refine ⟨header, s, portions, read, ⟨⟨sections, moreAvailable, final, finished.starts, order, reached,
    rfl⟩, describes, takes⟩, finished.checksum, rfl, rfl, ?_⟩
  intro interleaved sections₁ sections₂ layout there moreAvailable'
  obtain ⟨t, run, used, level⟩ := @follows ((d.enter (header.relaid (layOut interleaved portions))
    history.size).2.bodyState sections₁ history) (context.bodyContext (d.enter (header.relaid
      (layOut interleaved portions)) history.size).1 moreAvailable') sections₂ ⟨rfl, rfl, rfl, rfl⟩
    rfl rfl (by rw [bodyState, layout]; exact there)
  exact ⟨t, run, used, level.target⟩

theorem decode_relaid (phase : d.phase = .header) (extensions : d.version.hasExtensions = true)
    {target : Array UInt8} {interleaved : Bool}
    (nonempty : (layOut false portions).data ≠ [] ∨ (layOut false portions).addresses ≠ [])
    (exhausts : (d.enter (header.relaid (layOut interleaved portions)) history.size).2.Exhausts
      context (d.enter (header.relaid (layOut interleaved portions)) history.size).1 history target
      interleaved (layOut interleaved portions))
    (checked : (d.enter header history.size).1.checkChecksum target = .ok ())
    (fits : header.Fits (context.headerContext d.version)
      (context.config.checkLength context.decoded)) (segment : header.segment.Fields)
    (checksum : ∀ n ∈ header.sections.checksum, n ≤ Varint.maxUInt32)
    (length : (header.relaid (layOut interleaved portions)).deltaLength ≤ Varint.maxInt32)
    (takes : c.Takes ((header.relaid (layOut interleaved portions)).toBytes ++
      (layOut interleaved portions).toList) c') :
    (d.decode context c history).outcome = .ok (.complete history.size target.size) ∧
      (d.decode context c history).cursor = c' ∧ (d.decode context c history).target = target := by
  have layout := header.isInterleaved_relaid extensions nonempty interleaved
  obtain ⟨d', decoded, -⟩ := @decode_exhausts d context c c' history target _
    (header.relaid (layOut interleaved portions)) phase (by rw [layout]; exact exhausts) checked
    ⟨rfl, rfl, rfl⟩ ⟨fits.segment, fits.field, fits.checked⟩
    ⟨segment, fits.field, length, checksum⟩ (fun _ => extensions) takes
  rw [decoded]
  exact ⟨rfl, rfl, rfl⟩

/-- A window that is complete, in whatever pieces it has come, is complete in the other layout too:
with the same source segment, target length and checksum, and the portions of its body in the order
in which they are consumed. In either case it makes the same target. -/
theorem feed_relaid (ready : d.Ready context history) (phase : d.phase = .header)
    (version : d.version = .sdch) (c : Cursor) (pieces : List (List UInt8)) {start stop : Nat}
    (complete : (d.feed context c history pieces).outcome = .ok (.complete start stop)) :
    ∃ header s portions, d.readHeader context (c.extend pieces.flatten) = (.ok header, s) ∧
      d.Consumes context history header s.cursor (d.feed context c history pieces).cursor
        (d.feed context c history pieces).target portions ∧
      let other := layOut (!header.isInterleaved d.version) portions
      (layOut false portions).data ≠ [] ∨ (layOut false portions).addresses ≠ [] →
      (header.relaid other).deltaLength ≤ Varint.maxInt32 →
        (header.relaid other).isInterleaved d.version = !header.isInterleaved d.version ∧
        ∀ (c₁ c₂ : Cursor) (pieces' : List (List UInt8)),
          (c₁.extend pieces'.flatten).Takes ((header.relaid other).toBytes ++ other.toList) c₂ →
            (d.feed context c₁ history pieces').outcome = .ok (.complete start stop) ∧
            (d.feed context c₁ history pieces').cursor = c₂ ∧
            (d.feed context c₁ history pieces').target =
              (d.feed context c history pieces).target := by
  have extensions : d.version.hasExtensions = true := by rw [version]; rfl
  obtain ⟨whole, cursor, target⟩ := (alike_feed ready c pieces).of_complete complete
  obtain ⟨header, s, portions, read, consumes, checksum, rfl, rfl, exhausts⟩ :=
    consumes_decode phase whole
  obtain ⟨-, -, yields⟩ := WindowHeader.safe_parse_fields (context.headerContext d.version)
    (context.config.checkLength context.decoded) (.ofCursor (c.extend pieces.flatten)) _ _
    (HeaderState.started_ofCursor _) read
  obtain ⟨fits, segment, checksumField⟩ := yields header rfl
  rw [cursor, target] at consumes
  rw [target] at checksum exhausts ⊢
  refine ⟨header, s, portions, read, consumes, fun nonempty length => ?_⟩
  have layout := header.isInterleaved_relaid extensions nonempty (!header.isInterleaved d.version)
  refine ⟨layout, fun c₁ c₂ pieces' there => ?_⟩
  obtain ⟨outcome, cursor', target'⟩ := decode_relaid phase extensions nonempty (exhausts _) checksum
    fits segment checksumField length there
  obtain ⟨outcome₁, cursor₁, target₁⟩ := (alike_feed ready c₁ pieces').symm.of_complete outcome
  exact ⟨outcome₁, cursor₁.trans cursor', target₁.trans target'⟩

theorem feed_relaid_double :
    let d := ofVersion .sdch
    let c : Cursor := ⟨0, [0, 8, 5, 0]⟩
    let pieces : List (List UInt8) := [[1, 1, 1, 0x61], [163, 0]]
    d.Ready ⟨#[], {}, 0⟩ #[] ∧ d.phase = .header ∧ d.version = .sdch ∧
      (d.feed ⟨#[], {}, 0⟩ c #[] pieces).outcome = .ok (.complete 0 5) ∧
      ∃ header s portions,
        d.readHeader ⟨#[], {}, 0⟩ (c.extend pieces.flatten) = (.ok header, s) ∧
        d.Consumes ⟨#[], {}, 0⟩ #[] header s.cursor (d.feed ⟨#[], {}, 0⟩ c #[] pieces).cursor
          (d.feed ⟨#[], {}, 0⟩ c #[] pieces).target portions ∧
        let other := layOut (!header.isInterleaved d.version) portions
        (layOut false portions).data ≠ [] ∨ (layOut false portions).addresses ≠ [] →
        (header.relaid other).deltaLength ≤ Varint.maxInt32 →
          (header.relaid other).isInterleaved d.version = !header.isInterleaved d.version ∧
          ∀ (c₁ c₂ : Cursor) (pieces' : List (List UInt8)),
            (c₁.extend pieces'.flatten).Takes ((header.relaid other).toBytes ++ other.toList) c₂ →
              (d.feed ⟨#[], {}, 0⟩ c₁ #[] pieces').outcome = .ok (.complete 0 5) ∧
              (d.feed ⟨#[], {}, 0⟩ c₁ #[] pieces').cursor = c₂ ∧
              (d.feed ⟨#[], {}, 0⟩ c₁ #[] pieces').target =
                (d.feed ⟨#[], {}, 0⟩ c #[] pieces).target :=
  have ready : (ofVersion .sdch).Ready ⟨#[], {}, 0⟩ #[] :=
    ⟨CodeTable.valid_standard, fun _ => rfl, fun _ h => by cases h⟩
  have complete : ((ofVersion .sdch).feed ⟨#[], {}, 0⟩ ⟨0, [0, 8, 5, 0]⟩ #[]
      [[1, 1, 1, 0x61], [163, 0]]).outcome = .ok (.complete 0 5) := by decide +kernel
  ⟨ready, rfl, rfl, complete, feed_relaid ready rfl rfl _ _ complete⟩

end WindowDecoder

end DeltaCoding
