import DeltaCoding.Proofs.CodeTable.Valid
import DeltaCoding.Proofs.Window.Body
import DeltaCoding.Window.Progress

/-!
# Decoding windows safely

Facts that are checked at different times make a window safe: the code table was validated against
the sizes of the caches, the header was read against the target so far, and a body in progress has
stayed within the bounds of its header. `WindowDecoder.Ready` puts them together. A decoder that is
ready always has an answer, and is ready again unless it has failed (`WindowDecoder.sound_decode`).
-/

namespace DeltaCoding

/-- The number of target bytes of earlier windows that are kept. -/
def WindowContext.historySize (context : WindowContext) : Nat :=
  if context.config.allowTarget then context.decoded else 0

/-- A body that has been entered and not gone beyond its bounds. -/
structure WindowBody.Sound (body : WindowBody) (context : WindowContext) (target : Array UInt8) :
    Prop where
  within : body.segment.Within context.dictionary.size context.decoded context.config.allowTarget
  windowStart : body.windowStart = context.historySize
  starts : body.windowStart ≤ target.size
  room : target.size ≤ body.windowStart + body.targetLength
  checked : context.config.checkLength context.decoded body.targetLength = .ok ()
  field : body.targetLength ≤ Varint.maxInt32

/-- The part of a segment that a window copies from is there. -/
theorem WindowBody.Sound.space {body : WindowBody} {context : WindowContext}
    {target : Array UInt8} (sound : body.Sound context target) (moreAvailable : Bool) :
    (context.bodyContext body moreAvailable).space.Within := by
  have within := sound.within
  have windowStart := sound.windowStart
  refine ⟨context.config.allowTarget, ?_⟩
  simp only [WindowContext.bodyContext]
  cases segment : body.segment with
  | none => exact trivial
  | dictionary position length =>
    rw [segment] at within
    exact within
  | target position length =>
    rw [segment] at within
    obtain ⟨allowed, inside⟩ := within
    rw [WindowContext.historySize, if_pos allowed] at windowStart
    exact ⟨allowed, windowStart ▸ inside⟩

namespace WindowDecoder

/-- The decoder's code table can be used with its caches. -/
def Valid (decoder : WindowDecoder) : Prop :=
  decoder.reader.table.Valid decoder.cache.sizes.maxMode

/-- The decoder can go on. A body that is in progress between two calls is an interleaved one. -/
structure Ready (decoder : WindowDecoder) (context : WindowContext) (target : Array UInt8) :
    Prop where
  valid : decoder.Valid
  header : decoder.phase = .header → target.size = context.historySize
  body : ∀ body, decoder.phase = .body body →
    body.Sound context target ∧ ∃ remaining, body.layout = .interleaved remaining

end WindowDecoder

/-- What a call that a decoder was ready for comes to. -/
structure WindowProgress.Sound (progress : WindowProgress) (context : WindowContext) : Prop where
  answers : progress.outcome ≠ .error .breach
  needMore : progress.outcome = .ok .needMoreData →
    progress.decoder.Ready context progress.target
  complete : ∀ start stop, progress.outcome = .ok (.complete start stop) →
    progress.decoder.Valid ∧ progress.decoder.phase = .header ∧ start = context.historySize ∧
      stop = progress.target.size ∧ start ≤ stop ∧
      context.config.checkLength context.decoded (stop - start) = .ok () ∧
      stop - start ≤ Varint.maxInt32

theorem DecodeError.locate_ne_breach (offset : Nat) (error : FormatError) :
    locate offset error ≠ .breach := by
  intro breach
  cases error <;> cases breach

namespace WindowProgress

variable {progress : WindowProgress} {context : WindowContext}

theorem sound_malformed {offset : Nat} {error : FormatError}
    (failed : progress.outcome = .error (.locate offset error)) : progress.Sound context := by
  refine ⟨?_, ?_, ?_⟩
  · rw [failed]
    exact fun breach => DecodeError.locate_ne_breach _ _ (Except.error.inj breach)
  · intro waits
    cases failed.symm.trans waits
  · intro start stop complete
    cases failed.symm.trans complete

theorem sound_needMoreData (waits : progress.outcome = .ok .needMoreData)
    (ready : progress.decoder.Ready context progress.target) : progress.Sound context := by
  refine ⟨?_, fun _ => ready, ?_⟩
  · rw [waits]
    intro breach
    cases breach
  · intro start stop complete
    cases waits.symm.trans complete

theorem Sound.inside (sound : progress.Sound context) {start stop : Nat}
    (complete : progress.outcome = .ok (.complete start stop)) :
    ¬ (progress.target.size < stop ∨ stop < start) := by
  obtain ⟨-, -, -, stopEq, ordered, -⟩ := sound.complete start stop complete
  omega

end WindowProgress

namespace WindowDecoder

variable {decoder : WindowDecoder} {context : WindowContext} {body : WindowBody} {c : Cursor}
  {target : Array UInt8}

theorem safe_bodyState (valid : decoder.Valid) (sound : body.Sound context target)
    (sections : Sections) (moreAvailable : Bool) :
    (decoder.bodyState sections target).Safe (context.bodyContext body moreAvailable) :=
  ⟨valid.resolvable, sound.space moreAvailable, sound.starts, sound.room⟩

theorem sound_conclude {layout : BodyLayout} {moreAvailable : Bool} {s : BodyState}
    {ending : BodyEnd} (valid : decoder.Valid) (sound : body.Sound context target)
    (table : s.reader.table = decoder.reader.table) (sizes : s.cache.sizes = decoder.cache.sizes)
    (safe : s.Safe (context.bodyContext body moreAvailable))
    (ends : ending.Sound (context.bodyContext body moreAvailable))
    (complete : ending = .complete →
      s.produced (context.bodyContext body moreAvailable) = body.targetLength)
    (interleaved : moreAvailable = true → ∃ remaining, layout = .interleaved remaining) :
    (decoder.conclude { body with layout := layout } s ending c).Sound context := by
  have valid' : CodeTable.Valid s.reader.table s.cache.sizes.maxMode := by
    rw [table, sizes]
    exact valid
  cases ending with
  | breach => exact absurd rfl ends.answers
  | malformed offset error => exact WindowProgress.sound_malformed rfl
  | needMoreData =>
    refine WindowProgress.sound_needMoreData rfl ⟨valid', (fun h => by cases h), ?_⟩
    rintro _ ⟨⟩
    exact ⟨⟨sound.within, sound.windowStart, safe.starts, safe.room, sound.checked, sound.field⟩,
      interleaved (ends.needMore rfl)⟩
  | complete =>
    have reached := complete rfl
    have starts : body.windowStart ≤ s.target.size := safe.starts
    simp only [BodyState.produced, WindowContext.bodyContext] at reached
    simp only [conclude]
    split
    · exact WindowProgress.sound_malformed rfl
    · refine ⟨(fun h => by cases h), (fun h => by cases h), ?_⟩
      rintro start stop ⟨⟩
      refine ⟨valid', rfl, sound.windowStart, rfl, starts, ?_, ?_⟩
      · rw [reached]; exact sound.checked
      · rw [reached]; exact sound.field

theorem split?_eq {n : Nat} (h : n ≤ c.rest.length) : c.split? n = some (c.window n, c.skip n) := by
  rw [Cursor.split?, if_pos ((c.has_iff n).2 h)]

theorem splitSections?_eq {lengths : SectionLengths} (enough : lengths.total ≤ c.rest.length) :
    splitSections? lengths c = some
      (.separate (c.window lengths.data) ((c.skip lengths.data).window lengths.instructions)
        (((c.skip lengths.data).skip lengths.instructions).window lengths.addresses),
        ((c.skip lengths.data).skip lengths.instructions).skip lengths.addresses) := by
  simp only [SectionLengths.total] at enough
  have first : (c.skip lengths.data).rest.length = c.rest.length - lengths.data := by
    simp [Cursor.skip]
  have second : ((c.skip lengths.data).skip lengths.instructions).rest.length =
      c.rest.length - lengths.data - lengths.instructions := by
    simp [Cursor.skip]
    omega
  simp only [splitSections?, Option.bind_eq_bind, Option.pure_def]
  rw [split?_eq (by omega)]
  simp only [Option.bind_some]
  rw [split?_eq (by omega)]
  simp only [Option.bind_some]
  rw [split?_eq (by omega)]
  rfl

theorem resumeStandard_eq {lengths : SectionLengths} {sections : Sections} {behind : Cursor}
    (split : splitSections? lengths c = some (sections, behind))
    (layout : body.layout = .standard lengths) :
    let run := (decoder.bodyState sections target).run (context.bodyContext body false)
    decoder.resumeStandard context body lengths c target =
      decoder.conclude { body with layout := .standard lengths } run.1 run.2 behind := by
  simp only [resumeStandard, split]
  rw [← layout]

theorem sound_resumeStandard {lengths : SectionLengths} (valid : decoder.Valid)
    (sound : body.Sound context target) (layout : body.layout = .standard lengths)
    (enough : lengths.total ≤ c.rest.length) :
    (decoder.resumeStandard context body lengths c target).Sound context := by
  rw [resumeStandard_eq (splitSections?_eq enough) layout]
  generalize Sections.separate _ _ _ = sections
  have leads := BodyState.leads_run (decoder.bodyState sections target)
    (context.bodyContext body false)
  have safe := BodyState.safe_run (safe_bodyState valid sound sections false)
  exact sound_conclude valid sound leads.table leads.sizes safe.1 safe.2
    BodyState.produced_of_complete (fun h => by cases h)

theorem consumed_le {n : Nat} {c' : Cursor} (h : (c.window n).Reaches c') :
    c'.offset - c.offset ≤ n ∧ c.has (c'.offset - c.offset) = true := by
  obtain ⟨read, rest, offset⟩ := h
  have length := congrArg List.length rest
  simp only [Cursor.window, List.length_take, List.length_append] at length offset
  rw [Cursor.has_iff, offset]
  omega

theorem sound_resumeInterleaved {remaining : Nat} (valid : decoder.Valid)
    (sound : body.Sound context target) :
    (decoder.resumeInterleaved context body remaining c target).Sound context := by
  have leads := BodyState.leads_run (decoder.bodyState (.interleaved (c.window remaining)) target)
    (context.bodyContext body (!c.has remaining))
  have safe := BodyState.safe_run (safe_bodyState valid sound (.interleaved (c.window remaining))
    (!c.has remaining))
  simp only [resumeInterleaved]
  rw [if_pos (consumed_le leads.reaches)]
  exact sound_conclude valid sound leads.table leads.sizes safe.1 safe.2
    BodyState.produced_of_complete fun _ => ⟨_, rfl⟩

theorem sound_enter {header : WindowHeader} (size : target.size = context.historySize)
    (fits : header.Fits (context.headerContext decoder.version)
      (context.config.checkLength context.decoded)) :
    (decoder.enter header target.size).1.Sound context target where
  within := fits.segment
  windowStart := size
  starts := Nat.le_refl _
  room := Nat.le_add_right _ _
  checked := fits.checked
  field := fits.field

/-- A decoder that is ready has an answer to whatever comes, and is ready for more afterwards. -/
theorem sound_decode (ready : decoder.Ready context target) (c : Cursor) :
    (decoder.decode context c target).Sound context := by
  cases phase : decoder.phase with
  | body body =>
    obtain ⟨sound, remaining, layout⟩ := ready.body body phase
    simp only [decode, phase, resume, layout]
    exact sound_resumeInterleaved ready.valid sound
  | header =>
    obtain ⟨-, answers, yields⟩ := WindowHeader.safe_parse (context.headerContext decoder.version)
      (context.config.checkLength context.decoded) (.ofCursor c) _ _
      (HeaderState.started_ofCursor c) rfl
    simp only [decode, phase, readHeader]
    split
    · exact WindowProgress.sound_needMoreData rfl ready
    · next run => exact absurd (congrArg Prod.fst run) answers
    · exact WindowProgress.sound_malformed rfl
    · next header s run =>
      have sound := @sound_enter decoder context target header (ready.header phase)
        (yields header (congrArg Prod.fst run))
      have valid : (decoder.enter header target.size).2.Valid := ready.valid
      split
      · next enough =>
        simp only [resume]
        split
        · next lengths layout =>
          apply sound_resumeStandard valid sound layout
          simp only [enter] at layout
          split at layout
          · cases layout
          · next standard =>
            cases layout
            simpa [standard, Cursor.has_iff] using enough
        · exact sound_resumeInterleaved valid sound
      · exact WindowProgress.sound_needMoreData rfl ready

end WindowDecoder

end DeltaCoding
