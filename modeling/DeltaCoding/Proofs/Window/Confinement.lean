import DeltaCoding.Proofs.Window.Cutting
import DeltaCoding.Proofs.Window.Reading

/-!
# Keeping to the source segment

A body does what it does against its source segment alone: nothing else of the dictionary and of what
earlier windows have made is looked at (`BodyState.run_behind`). A window therefore comes to the same
against any dictionary with its source segment in the same place (`WindowDecoder.decode_dictionary`),
and, if its segment is not one of the target so far, behind any earlier windows
(`WindowDecoder.mirrors_feed`).
-/

namespace DeltaCoding

/-- The same body with its source segment for a dictionary, and no window in front of it. -/
def BodyContext.alone (context : BodyContext) (history : Array UInt8) : BodyContext :=
  { context with
    space := ⟨context.space.source history, .dictionary 0 context.space.segment.length, 0⟩ }

/-- The same state with earlier windows in front of it. -/
def BodyState.behind (s : BodyState) (history : Array UInt8) : BodyState :=
  { s with target := history ++ s.target }

/-- The same step with earlier windows in front of it. -/
def BodyStep.behind (history : Array UInt8) : BodyStep → BodyStep
  | next s => next (s.behind history)
  | ended s ending => ended (s.behind history) ending

namespace BodyState

variable {context : BodyContext} {history : Array UInt8}

theorem within_alone (within : context.space.Within)
    (starts : history.size = context.space.windowStart) : (context.alone history).space.Within := by
  refine ⟨false, ?_⟩
  simp only [BodyContext.alone, SourceSegment.Within]
  rw [AddressSpace.size_source within starts]
  omega

theorem source_alone (within : context.space.Within)
    (starts : history.size = context.space.windowStart) :
    (context.alone history).space.source #[] = context.space.source history := by
  have size := AddressSpace.size_source within starts
  simp only [BodyContext.alone, AddressSpace.source] at size ⊢
  rw [Nat.zero_add, ← size, Array.extract_size]

theorem produced_behind (starts : history.size = context.space.windowStart) (s : BodyState) :
    (s.behind history).produced context = s.produced (context.alone history) := by
  simp only [produced, behind, BodyContext.alone, Array.size_append]
  omega

theorem appendList_append (history out : Array UInt8) (bytes : List UInt8) :
    (history ++ out).appendList bytes = history ++ out.appendList bytes := by
  rw [← Array.toList_inj]
  simp only [Array.appendList_eq_append, Array.toList_appendList, Array.toList_append,
    List.append_assoc]

theorem perform_behind (within : context.space.Within)
    (starts : history.size = context.space.windowStart) (s : BodyState) (instruction : Instruction) :
    (s.behind history).perform context instruction =
      ((s.perform (context.alone history) instruction).1.behind history,
        (s.perform (context.alone history) instruction).2) := by
  cases instruction with
  | add size =>
    simp only [perform, performAdd, behind]
    cases Parser.bytes size s.sections.data with
    | error stop => rfl
    | ok p => simp only [appendList_append]
  | run size =>
    simp only [perform, performRun, behind]
    cases Parser.byte s.sections.data with
    | error stop => rfl
    | ok p => simp only [Array.append_assoc]
  | copy size mode =>
    have produced := produced_behind starts s
    simp only [perform, performCopy, produced]
    have here : (context.alone history).space.segment.length = context.space.segment.length := rfl
    rw [here]
    simp only [behind]
    cases read : s.cache.decode
        (context.space.segment.length + s.produced (context.alone history)) mode s.sections.addresses with
    | error stop => cases stop <;> rfl
    | ok p =>
      obtain ⟨⟨address, cache⟩, c⟩ := p
      obtain ⟨before, -⟩ := AddressCache.decode_ok read
      have produced : s.produced (context.alone history) = s.target.size := Nat.sub_zero _
      have copied := @AddressSpace.copy?_eq context.space history s.target address size within starts
        (by omega)
      have copied' := @AddressSpace.copy?_eq (context.alone history).space #[] s.target address size
        (within_alone within starts) rfl (by rw [here]; omega)
      rw [source_alone within starts, Array.empty_append, Array.empty_append] at copied'
      simp only [copied, copied']

theorem execute_behind (within : context.space.Within)
    (starts : history.size = context.space.windowStart) (s : BodyState) (before : Sections)
    (instruction : Instruction) : (s.behind history).execute context before instruction =
      (s.execute (context.alone history) before instruction).behind history := by
  have length : (context.alone history).targetLength = context.targetLength := rfl
  simp only [execute, produced_behind starts, length, perform_behind within starts]
  split
  · rfl
  · split
    · rfl
    · rcases s.perform (context.alone history) instruction with ⟨s', outcome⟩
      cases outcome <;> rfl

theorem step_behind (within : context.space.Within)
    (starts : history.size = context.space.windowStart) (s : BodyState) :
    (s.behind history).step context = (s.step (context.alone history)).behind history := by
  have inside : ¬ (s.behind history).target.size < context.space.windowStart := by
    simp only [behind, Array.size_append]
    omega
  have inside' : ¬ s.target.size < (context.alone history).space.windowStart := Nat.not_lt_zero _
  have reader : (s.behind history).reader = s.reader := rfl
  have sections : (s.behind history).sections = s.sections := rfl
  have length : (context.alone history).targetLength = context.targetLength := rfl
  simp only [step, if_neg inside, if_neg inside', produced_behind starts, length, reader, sections]
  split
  · rfl
  · rcases s.reader.next s.sections.instructions with ⟨stop | (_ | instruction), reader, c⟩
    · cases stop <;> rfl
    · rfl
    · exact execute_behind within starts (s.afterRead reader c) s.sections instruction

/-- A whole body does the same against its source segment alone. -/
theorem run_behind (within : context.space.Within)
    (starts : history.size = context.space.windowStart) (s : BodyState) :
    (s.behind history).run context = ((s.run (context.alone history)).1.behind history,
      (s.run (context.alone history)).2) := by
  -- Along the steps, each of which does the same.
  fun_induction run s (context.alone history) with
  | case1 s s' stepped ih =>
    have stepped' := step_behind within starts s
    rw [stepped] at stepped'
    rw [run_next stepped', ih]
  | case2 s s' ending stepped =>
    have stepped' := step_behind within starts s
    rw [stepped] at stepped'
    rw [run_ended stepped']

end BodyState

/-! ## Another dictionary -/

/-- The dictionaries are of one size, and the same where the segment lies. -/
structure SourceSegment.AgreesOn (segment : SourceSegment) (dictionary dictionary' : Array UInt8) :
    Prop where
  size : dictionary.size = dictionary'.size
  bytes : ∀ position length, segment = .dictionary position length →
    ∀ i, position ≤ i → i < position + length → dictionary[i]? = dictionary'[i]?

namespace AddressSpace

variable {dictionary dictionary' : Array UInt8} {segment : SourceSegment}

theorem source_agrees (agrees : segment.AgreesOn dictionary dictionary') (windowStart : Nat)
    (history : Array UInt8) : (AddressSpace.mk dictionary segment windowStart).source history =
      (AddressSpace.mk dictionary' segment windowStart).source history := by
  cases segment with
  | none => rfl
  | target position length => rfl
  | dictionary position length =>
    have size := agrees.size
    simp only [source]
    apply Array.ext_getElem?
    intro i
    rw [Array.getElem?_extract, Array.getElem?_extract, size]
    split
    · next inside => exact agrees.bytes position length rfl _ (by omega) (by omega)
    · rfl

end AddressSpace

namespace WindowDecoder

variable {d e : WindowDecoder} {config : DecoderConfig} {decoded : Nat} {body : WindowBody}
  {c : Cursor} {target dictionary dictionary' : Array UInt8}

theorem sound_dictionary (size : dictionary.size = dictionary'.size)
    (sound : body.Sound ⟨dictionary, config, decoded⟩ target) :
    body.Sound ⟨dictionary', config, decoded⟩ target :=
  ⟨size ▸ sound.within, sound.windowStart, sound.starts, sound.room, sound.checked, sound.field⟩

theorem run_dictionary (agrees : body.segment.AgreesOn dictionary dictionary')
    (sound : body.Sound ⟨dictionary, config, decoded⟩ target) (sections : Sections)
    (moreAvailable : Bool) :
    (d.bodyState sections target).run
        (WindowContext.bodyContext ⟨dictionary', config, decoded⟩ body moreAvailable) =
      (d.bodyState sections target).run
        (WindowContext.bodyContext ⟨dictionary, config, decoded⟩ body moreAvailable) := by
  have within := sound.space moreAvailable
  have within' := (sound_dictionary agrees.size sound).space moreAvailable
  obtain ⟨history, out, starts, rfl⟩ := AddressSpace.exists_history sound.starts
  have alone : (WindowContext.bodyContext ⟨dictionary', config, decoded⟩ body moreAvailable).alone
      history = (WindowContext.bodyContext ⟨dictionary, config, decoded⟩ body moreAvailable).alone
        history := by
    simp only [WindowContext.bodyContext, BodyContext.alone, AddressSpace.source_agrees agrees]
  change ((d.bodyState sections out).behind history).run _ =
    ((d.bodyState sections out).behind history).run _
  rw [BodyState.run_behind within' starts, BodyState.run_behind within starts, alone]

theorem resume_dictionary (agrees : body.segment.AgreesOn dictionary dictionary')
    (sound : body.Sound ⟨dictionary, config, decoded⟩ target) (d : WindowDecoder) (c : Cursor) :
    d.resume ⟨dictionary', config, decoded⟩ body c target =
      d.resume ⟨dictionary, config, decoded⟩ body c target := by
  simp only [resume]
  cases body.layout with
  | standard lengths => simp only [resumeStandard, run_dictionary agrees sound]
  | interleaved remaining => simp only [resumeInterleaved, run_dictionary agrees sound]

theorem readHeader_dictionary (size : dictionary.size = dictionary'.size) (d : WindowDecoder)
    (c : Cursor) : d.readHeader ⟨dictionary', config, decoded⟩ c =
      d.readHeader ⟨dictionary, config, decoded⟩ c := by
  simp only [readHeader, WindowContext.headerContext, size]

theorem decode_dictionary (size : dictionary.size = dictionary'.size)
    (ready : d.Ready ⟨dictionary, config, decoded⟩ target)
    (agrees : ∀ body e c', d.entered? ⟨dictionary, config, decoded⟩ c target = some (body, e, c') →
      body.segment.AgreesOn dictionary dictionary') :
    d.decode ⟨dictionary', config, decoded⟩ c target =
      d.decode ⟨dictionary, config, decoded⟩ c target := by
  cases phase : d.phase with
  | body body =>
    have about : d.entered? ⟨dictionary, config, decoded⟩ c target = some (body, d, c) := by
      simp only [entered?, phase]
    obtain ⟨sound, -⟩ := ready.body body phase
    simp only [decode, phase]
    exact resume_dictionary (agrees _ _ _ about) sound d c
  | header =>
    simp only [decode, phase, readHeader_dictionary size]
    rcases read : d.readHeader ⟨dictionary, config, decoded⟩ c with ⟨stop | header, s⟩
    · cases stop <;> rfl
    · dsimp only
      split
      · next enough =>
        have about : d.entered? ⟨dictionary, config, decoded⟩ c target =
            some ((d.enter header target.size).1, (d.enter header target.size).2, s.cursor) := by
          simp only [entered?, phase, read, enough, if_true]
        obtain ⟨-, sound, -⟩ := sound_entered ready about
        exact resume_dictionary (agrees _ _ _ about) sound _ _
      · rfl

end WindowDecoder

/-! ## Other windows in front -/

/-- The segment is not one of the target so far. -/
def SourceSegment.External : SourceSegment → Prop
  | target _ _ => False
  | _ => True

def WindowPhase.startingAt (n : Nat) : WindowPhase → WindowPhase
  | .header => .header
  | .body entered => .body { entered with windowStart := n }

/-- The same decoder with `n` bytes in front of its window. -/
def WindowDecoder.startingAt (d : WindowDecoder) (n : Nat) : WindowDecoder :=
  { d with phase := d.phase.startingAt n }

/-- The two calls come to the same, one behind `history` and one behind `history'`. -/
structure WindowProgress.Mirrors (history history' : Array UInt8) (p q : WindowProgress) : Prop where
  outcome : (∃ error, p.outcome = .error error ∧ q.outcome = .error error) ∨
    (p.outcome = .ok .needMoreData ∧ q.outcome = .ok .needMoreData) ∨
    (p.outcome = .ok (.complete history.size p.target.size) ∧
      q.outcome = .ok (.complete history'.size q.target.size))
  cursor : q.cursor = p.cursor
  target : ∃ out, p.target = history ++ out ∧ q.target = history' ++ out

theorem WindowProgress.Mirrors.stalled {history history' : Array UInt8} {p q : WindowProgress}
    (h : p.Mirrors history history' q) :
    p.outcome = .ok .needMoreData ↔ q.outcome = .ok .needMoreData := by
  rcases h.outcome with ⟨error, left, right⟩ | ⟨left, right⟩ | ⟨left, right⟩ <;>
    simp only [left, right, Except.ok.injEq, reduceCtorEq]

namespace WindowDecoder

variable {d e : WindowDecoder} {config config' : DecoderConfig} {decoded decoded' : Nat}
  {body : WindowBody} {c : Cursor} {dictionary history history' out : Array UInt8}

theorem checkComplete_behind (starts : history.size = body.windowStart) (sections : Sections)
    (out : Array UInt8) : body.checkComplete sections (history ++ out) =
      WindowBody.checkComplete { body with windowStart := 0 } sections out := by
  have own : (history ++ out).extract body.windowStart (history ++ out).size =
      out.extract 0 out.size := by
    rw [← starts, Array.extract_append, Array.size_append, Nat.sub_self, Nat.add_sub_cancel_left,
      Array.extract_eq_empty_of_le (by omega), Array.empty_append]
  simp only [WindowBody.checkComplete, WindowBody.checkChecksum, own]

theorem mirrors_conclude (starts : history.size = body.windowStart) (d : WindowDecoder)
    (s : BodyState) (ending : BodyEnd) (c : Cursor) :
    let p := d.conclude body (s.behind history) ending c
    let q := (d.startingAt history'.size).conclude { body with windowStart := history'.size }
      (s.behind history') ending c
    p.Mirrors history history' q ∧ q.decoder = p.decoder.startingAt history'.size := by
  have checked := checkComplete_behind starts s.sections s.target
  have checked' := @checkComplete_behind { body with windowStart := history'.size } history' rfl
    s.sections s.target
  cases ending with
  | needMoreData => exact ⟨⟨.inr (.inl ⟨rfl, rfl⟩), rfl, _, rfl, rfl⟩, rfl⟩
  | malformed offset error => exact ⟨⟨.inl ⟨_, rfl, rfl⟩, rfl, _, rfl, rfl⟩, rfl⟩
  | breach => exact ⟨⟨.inl ⟨_, rfl, rfl⟩, rfl, _, rfl, rfl⟩, rfl⟩
  | complete =>
    simp only [conclude, BodyState.behind, checked, checked']
    cases WindowBody.checkComplete { body with windowStart := 0 } s.sections s.target with
    | error error => exact ⟨⟨.inl ⟨_, rfl, rfl⟩, rfl, _, rfl, rfl⟩, rfl⟩
    | ok u => exact ⟨⟨.inr (.inr ⟨by rw [starts], rfl⟩), rfl, _, rfl, rfl⟩, rfl⟩

theorem run_mirrors (external : body.segment.External) (starts : history.size = body.windowStart)
    (sound : body.Sound ⟨dictionary, config, decoded⟩ (history ++ out))
    (sound' : WindowBody.Sound { body with windowStart := history'.size }
      ⟨dictionary, config', decoded'⟩ (history' ++ out))
    (d : WindowDecoder) (sections : Sections) (moreAvailable : Bool) :
    ∃ (s : BodyState) (ending : BodyEnd),
      (d.bodyState sections (history ++ out)).run
          (WindowContext.bodyContext ⟨dictionary, config, decoded⟩ body moreAvailable) =
        (s.behind history, ending) ∧
      (d.bodyState sections (history' ++ out)).run (WindowContext.bodyContext
          ⟨dictionary, config', decoded'⟩ { body with windowStart := history'.size } moreAvailable) =
        (s.behind history', ending) := by
  have within := sound.space moreAvailable
  have within' := sound'.space moreAvailable
  have source : AddressSpace.source ⟨dictionary, body.segment, body.windowStart⟩ history =
      AddressSpace.source ⟨dictionary, body.segment, history'.size⟩ history' := by
    cases segment : body.segment with
    | none => rfl
    | dictionary position length => rfl
    | target position length =>
      rw [segment] at external
      exact external.elim
  have alone : (WindowContext.bodyContext ⟨dictionary, config, decoded⟩ body moreAvailable).alone
      history = (WindowContext.bodyContext ⟨dictionary, config', decoded'⟩
        { body with windowStart := history'.size } moreAvailable).alone history' := by
    simp only [WindowContext.bodyContext, BodyContext.alone, source]
  refine ⟨((d.bodyState sections out).run _).1, _, BodyState.run_behind within starts
    (d.bodyState sections out), ?_⟩
  rw [alone]
  exact BodyState.run_behind within' rfl (d.bodyState sections out)

theorem mirrors_resume (external : body.segment.External) (starts : history.size = body.windowStart)
    (sound : body.Sound ⟨dictionary, config, decoded⟩ (history ++ out))
    (sound' : WindowBody.Sound { body with windowStart := history'.size }
      ⟨dictionary, config', decoded'⟩ (history' ++ out)) (d : WindowDecoder) (c : Cursor) :
    let p := d.resume ⟨dictionary, config, decoded⟩ body c (history ++ out)
    let q := (d.startingAt history'.size).resume ⟨dictionary, config', decoded'⟩
      { body with windowStart := history'.size } c (history' ++ out)
    p.Mirrors history history' q ∧ q.decoder = p.decoder.startingAt history'.size := by
  have same (sections : Sections) (target : Array UInt8) :
      (d.startingAt history'.size).bodyState sections target = d.bodyState sections target := rfl
  obtain ⟨segment, targetLength, windowStart, checksum, layout⟩ := body
  have ran := run_mirrors external starts sound sound' d
  cases layout with
  | standard lengths =>
    simp only [resume, resumeStandard, same]
    cases splitSections? lengths c with
    | none => exact ⟨⟨.inl ⟨_, rfl, rfl⟩, rfl, _, rfl, rfl⟩, rfl⟩
    | some p =>
      obtain ⟨s, ending, left, right⟩ := ran p.1 false
      simp only [left, right]
      exact mirrors_conclude starts d s ending p.2
  | interleaved remaining =>
    obtain ⟨s, ending, left, right⟩ := ran (.interleaved (c.window remaining)) (!c.has remaining)
    simp only [resume, resumeInterleaved_eq, runInterleaved, same, left, right]
    exact mirrors_conclude (by exact starts) d s ending _

theorem phase_of_stalled {context : WindowContext} {target : Array UInt8}
    (stalled : (d.resume context body c target).outcome = .ok .needMoreData) :
    ∃ layout, (d.resume context body c target).decoder.phase = .body { body with layout := layout } := by
  simp only [resume] at stalled ⊢
  cases layout : body.layout with
  | standard lengths =>
    rw [layout] at stalled
    exact absurd stalled resumeStandard_final
  | interleaved remaining =>
    rw [layout] at stalled
    simp only [resumeInterleaved_eq] at stalled ⊢
    simp only [conclude, needMore_of_conclude stalled]
    exact ⟨_, rfl⟩

theorem mirrors_feed_call {context context' : WindowContext} {target target' : Array UInt8}
    {pieces : List (List UInt8)}
    (mirrored : (d.decode context c target).Mirrors history history' (e.decode context' c target'))
    (later : (d.decode context c target).outcome = .ok .needMoreData →
      ∀ piece rest, pieces = piece :: rest →
        ((d.decode context c target).decoder.feed context
            ((d.decode context c target).cursor.extend piece) (d.decode context c target).target
            rest).Mirrors history history'
          ((e.decode context' c target').decoder.feed context'
            ((d.decode context c target).cursor.extend piece) (e.decode context' c target').target
            rest)) :
    (d.feed context c target pieces).Mirrors history history' (e.feed context' c target' pieces) := by
  cases pieces with
  | nil => exact mirrored
  | cons piece rest =>
    by_cases stalled : (d.decode context c target).outcome = .ok .needMoreData
    · rw [feed_waits stalled, feed_waits (mirrored.stalled.1 stalled), mirrored.cursor]
      exact later stalled piece rest rfl
    · rw [feed_final stalled, feed_final (fun h => stalled (mirrored.stalled.2 h))]
      exact ⟨mirrored.outcome, by rw [mirrored.cursor], mirrored.target⟩

theorem mirrors_decode_entered {d₁ : WindowDecoder} {c₁ : Cursor}
    (external : body.segment.External) (starts : history.size = body.windowStart)
    (ready : d.Ready ⟨dictionary, config, decoded⟩ (history ++ out))
    (ready' : e.Ready ⟨dictionary, config', decoded'⟩ (history' ++ out))
    (about : d.entered? ⟨dictionary, config, decoded⟩ c (history ++ out) = some (body, d₁, c₁))
    (about' : e.entered? ⟨dictionary, config', decoded'⟩ c (history' ++ out) =
      some ({ body with windowStart := history'.size }, d₁.startingAt history'.size, c₁)) :
    let p := d.decode ⟨dictionary, config, decoded⟩ c (history ++ out)
    let q := e.decode ⟨dictionary, config', decoded'⟩ c (history' ++ out)
    p.Mirrors history history' q ∧ q.decoder = p.decoder.startingAt history'.size ∧
      (p.outcome = .ok .needMoreData →
        ∃ layout, p.decoder.phase = .body { body with layout := layout }) := by
  obtain ⟨-, sound, -⟩ := sound_entered ready about
  obtain ⟨-, sound', -⟩ := sound_entered ready' about'
  simp only [decode_entered about, decode_entered about']
  obtain ⟨mirrored, decoder⟩ := mirrors_resume external starts sound sound' d₁ c₁
  exact ⟨mirrored, decoder, phase_of_stalled⟩

/-- A body whose segment is one of the dictionary comes to the same behind any windows, in whatever
pieces the rest of it comes. -/
theorem mirrors_feed_entered {d₁ : WindowDecoder} {c₁ : Cursor} {pieces : List (List UInt8)}
    (external : body.segment.External) (starts : history.size = body.windowStart)
    (ready : d.Ready ⟨dictionary, config, decoded⟩ (history ++ out))
    (ready' : e.Ready ⟨dictionary, config, decoded'⟩ (history' ++ out))
    (about : d.entered? ⟨dictionary, config, decoded⟩ c (history ++ out) = some (body, d₁, c₁))
    (about' : e.entered? ⟨dictionary, config, decoded'⟩ c (history' ++ out) =
      some ({ body with windowStart := history'.size }, d₁.startingAt history'.size, c₁)) :
    (d.feed ⟨dictionary, config, decoded⟩ c (history ++ out) pieces).Mirrors history history'
      (e.feed ⟨dictionary, config, decoded'⟩ c (history' ++ out) pieces) := by
  -- By the pieces. What has been made so far is the same in both places.
  induction pieces generalizing d e d₁ body c c₁ out with
  | nil => exact (mirrors_decode_entered external starts ready ready' about about').1
  | cons piece rest ih =>
    obtain ⟨mirrored, decoder, continues⟩ :=
      mirrors_decode_entered external starts ready ready' about about'
    refine mirrors_feed_call mirrored fun stalled piece rest same => ?_
    cases same
    have next := (sound_decode ready c).needMore stalled
    have next' := (sound_decode ready' c).needMore (mirrored.stalled.1 stalled)
    obtain ⟨layout, phase⟩ := continues stalled
    obtain ⟨out', target, target'⟩ := mirrored.target
    rw [target] at next ⊢
    rw [target', decoder] at next' ⊢
    generalize d.decode ⟨dictionary, config, decoded⟩ c (history ++ out) = p at *
    have about : p.decoder.entered? ⟨dictionary, config, decoded⟩ (p.cursor.extend piece)
        (history ++ out') = some ({ body with layout := layout }, p.decoder,
          p.cursor.extend piece) := by
      simp only [entered?, phase]
    refine @ih _ _ { body with layout := layout } _ _ _ _ external starts next next' about ?_
    simp only [entered?, startingAt, phase, WindowPhase.startingAt]

/-! ### From the header on -/

section Header

variable {context context' : WindowContext} {target target' : Array UInt8} {header : WindowHeader}
  {s : HeaderState} {pieces : List (List UInt8)}

theorem readHeader_first {more : List UInt8}
    (read : d.readHeader context (c.extend more) = (.ok header, s)) :
    (s.cursor.rest.length < more.length ∧ (d.readHeader context c).1 = .error .needMoreData) ∨
      (more.length ≤ s.cursor.rest.length ∧
        ∃ s₁, d.readHeader context c = (.ok header, s₁) ∧ s = s₁.extend more) := by
  by_cases waits : (d.readHeader context c).1 = .error .needMoreData
  · exact .inl ⟨(WindowHeader.needs_parse _ _).beyond waits read, waits⟩
  · rw [readHeader_extend waits] at read
    rcases first : d.readHeader context c with ⟨outcome, s₁⟩
    rw [first] at read
    cases read
    refine .inr ⟨?_, s₁, rfl, rfl⟩
    simp only [HeaderState.extend, Cursor.extend_rest, List.length_append]
    omega

theorem feed_not_entered (phase : d.phase = .header)
    (about : d.entered? context (c.extend pieces.flatten) target = none) :
    d.feed context c target pieces = d.decode context (c.extend pieces.flatten) target := by
  induction pieces generalizing c with
  | nil =>
    rw [List.flatten_nil, Cursor.extend_nil]
    rfl
  | cons piece rest ih =>
    rw [List.flatten_cons] at about ⊢
    rcases decode_cases phase context c target with
      waits | ⟨stop, s, read, final⟩ | ⟨header, s, read, enough⟩
    · have stalled : (d.decode context c target).outcome = .ok .needMoreData := by rw [waits]
      rw [feed_waits stalled, waits, ← Cursor.extend_extend]
      exact ih (by rwa [Cursor.extend_extend])
    · obtain ⟨error, stopped, stopped'⟩ := @decode_stops d context c target phase _ _ read final
      rw [feed_final (by rw [stopped]; rintro ⟨⟩), stopped, stopped']
    · have entered : d.entered? context c target =
          some ((d.enter header target.size).1, (d.enter header target.size).2, s.cursor) := by
        simp only [entered?, phase, read, enough, if_true]
      rw [entered_extend entered] at about
      cases about

/-- A header that is the same in both places leads to bodies that are the same but for the windows in
front of them, as soon as enough of it is there. -/
theorem waits_or_enters (same : d.SameStart e) {more : List UInt8}
    (read : d.readHeader context (c.extend more) = (.ok header, s))
    (read' : e.readHeader context' (c.extend more) = (.ok header, s)) (history history' : Array UInt8) :
    (d.decode context c history = ⟨.ok .needMoreData, d, c, history⟩ ∧
        e.decode context' c history' = ⟨.ok .needMoreData, e, c, history'⟩) ∨
      ∃ body d₁ c₁, d.entered? context c history = some (body, d₁, c₁) ∧
        e.entered? context' c history' =
          some ({ body with windowStart := history'.size }, d₁.startingAt history'.size, c₁) ∧
        body.segment = header.segment ∧ history.size = body.windowStart := by
  obtain ⟨⟨phase, phase'⟩, version, table, sizes⟩ := same
  rcases readHeader_first read with ⟨beyond, waits⟩ | ⟨inside, s₁, read₁, rfl⟩
  · rcases readHeader_first read' with ⟨-, waits'⟩ | ⟨inside', -⟩
    · left
      rcases first : d.readHeader context c with ⟨stop, s₁⟩
      rcases first' : e.readHeader context' c with ⟨stop', s₂⟩
      rw [first] at waits
      rw [first'] at waits'
      obtain rfl := waits
      obtain rfl := waits'
      simp only [decode, phase, phase', first, first', and_self]
    · omega
  · rcases readHeader_first read' with ⟨beyond', -⟩ | ⟨-, s₂, read₂, same⟩
    · omega
    · obtain rfl := HeaderState.extend_inj same
      cases enough : header.isInterleaved d.version || s₁.cursor.has header.sections.total with
      | false =>
        have enough' := enough
        rw [version] at enough'
        simp only [decode, phase, phase', read₁, read₂, enough, enough', Bool.false_eq_true, if_false,
          and_self, true_or]
      | true =>
        have enough' := enough
        rw [version] at enough'
        right
        refine ⟨(d.enter header history.size).1, (d.enter header history.size).2, s₁.cursor, ?_, ?_,
          rfl, rfl⟩
        · simp only [entered?, phase, read₁, enough, if_true]
        · simp only [entered?, phase', read₂, enough', if_true, enter, startingAt,
            WindowPhase.startingAt, version, InstructionReader.reset, AddressCache.reset, table, sizes]

theorem mirrors_waits (waits : d.decode context c history = ⟨.ok .needMoreData, d, c, history⟩)
    (waits' : e.decode context' c history' = ⟨.ok .needMoreData, e, c, history'⟩) :
    (d.decode context c history).Mirrors history history' (e.decode context' c history') := by
  rw [waits, waits']
  exact ⟨.inr (.inl ⟨rfl, rfl⟩), rfl, #[], Array.append_empty.symm, Array.append_empty.symm⟩

theorem mirrors_feed_enters (external : header.segment.External)
    (ready : d.Ready ⟨dictionary, config, decoded⟩ history)
    (ready' : e.Ready ⟨dictionary, config, decoded'⟩ history')
    (entered : ∃ body d₁ c₁,
      d.entered? ⟨dictionary, config, decoded⟩ c history = some (body, d₁, c₁) ∧
        e.entered? ⟨dictionary, config, decoded'⟩ c history' =
          some ({ body with windowStart := history'.size }, d₁.startingAt history'.size, c₁) ∧
        body.segment = header.segment ∧ history.size = body.windowStart) :
    (d.feed ⟨dictionary, config, decoded⟩ c history pieces).Mirrors history history'
      (e.feed ⟨dictionary, config, decoded'⟩ c history' pieces) := by
  obtain ⟨body, d₁, c₁, about, about', segment, starts⟩ := entered
  rw [← segment] at external
  have nothing : history ++ #[] = history := Array.append_empty
  have nothing' : history' ++ #[] = history' := Array.append_empty
  have mirrored := @mirrors_feed_entered d e config decoded decoded' body c dictionary history history'
    #[] d₁ c₁ pieces external starts
  rw [nothing, nothing'] at mirrored
  exact mirrored ready ready' about about'

theorem mirrors_feed_header (same : d.SameStart e)
    (ready : d.Ready ⟨dictionary, config, decoded⟩ history)
    (ready' : e.Ready ⟨dictionary, config, decoded'⟩ history')
    (read : d.readHeader ⟨dictionary, config, decoded⟩ (c.extend pieces.flatten) = (.ok header, s))
    (read' : e.readHeader ⟨dictionary, config, decoded'⟩ (c.extend pieces.flatten) =
      (.ok header, s))
    (external : header.segment.External) :
    (d.feed ⟨dictionary, config, decoded⟩ c history pieces).Mirrors history history'
      (e.feed ⟨dictionary, config, decoded'⟩ c history' pieces) := by
  -- By the pieces. Both wait for the header and for what has to be there of the body, and then enter
  -- it in the same call.
  induction pieces generalizing c with
  | nil =>
    rcases waits_or_enters same read read' history history' with ⟨waits, waits'⟩ | entered
    · exact mirrors_waits waits waits'
    · exact mirrors_feed_enters external ready ready' entered
  | cons piece rest ih =>
    rcases waits_or_enters same read read' history history' with ⟨waits, waits'⟩ | entered
    · refine mirrors_feed_call (mirrors_waits waits waits') fun stalled piece rest here => ?_
      cases here
      rw [List.flatten_cons, ← Cursor.extend_extend] at read read'
      rw [waits, waits']
      exact ih read read'
    · exact mirrors_feed_enters external ready ready' entered

theorem mirrors_feed (same : d.SameStart e) (ready : d.Ready ⟨dictionary, config, decoded⟩ history)
    (ready' : e.Ready ⟨dictionary, config, decoded'⟩ history') (c : Cursor)
    (pieces : List (List UInt8))
    (read : d.readHeader ⟨dictionary, config, decoded⟩ (c.extend pieces.flatten) =
      e.readHeader ⟨dictionary, config, decoded'⟩ (c.extend pieces.flatten))
    (external : ∀ header s,
      d.readHeader ⟨dictionary, config, decoded⟩ (c.extend pieces.flatten) = (.ok header, s) →
        header.segment.External) :
    (d.feed ⟨dictionary, config, decoded⟩ c history pieces).Mirrors history history'
      (e.feed ⟨dictionary, config, decoded'⟩ c history' pieces) := by
  rcases whole : d.readHeader ⟨dictionary, config, decoded⟩ (c.extend pieces.flatten) with
    ⟨stop | header, s⟩
  · obtain ⟨⟨phase, phase'⟩, -⟩ := same
    have whole' := read.symm.trans whole
    rw [feed_not_entered phase (by simp only [entered?, phase, whole]),
      feed_not_entered phase' (by simp only [entered?, phase', whole'])]
    simp only [decode, phase, phase', whole, whole']
    have target : ∃ out, history = history ++ out ∧ history' = history' ++ out :=
      ⟨#[], Array.append_empty.symm, Array.append_empty.symm⟩
    cases stop with
    | needMoreData => exact ⟨.inr (.inl ⟨rfl, rfl⟩), rfl, target⟩
    | malformed error => exact ⟨.inl ⟨_, rfl, rfl⟩, rfl, target⟩
    | breach => exact ⟨.inl ⟨_, rfl, rfl⟩, rfl, target⟩
  · exact mirrors_feed_header same ready ready' whole (read.symm.trans whole) (external header s whole)

end Header

end WindowDecoder

end DeltaCoding
