import DeltaCoding.Proofs.Window.Resuming
import DeltaCoding.Proofs.Window.Safety

/-!
# Cutting a window

A window that is decoded in two calls comes to the same as one that is decoded in one, wherever the
cut is. In front of its body a cut is of no account, since the next call starts over; and a body that
has stalled is resumed. What differs is where an error is reported, and how far a body has got that
still waits for input (`WindowProgress.Alike`).
-/

namespace DeltaCoding

/-- The error without its place in the stream. -/
def DecodeError.unlocated : DecodeError → DecodeError
  | format _ error => format 0 error
  | limitExceeded _ limit size max => limitExceeded 0 limit size max
  | error => error

theorem DecodeError.unlocated_locate (offset offset' : Nat) (error : FormatError) :
    (locate offset error).unlocated = (locate offset' error).unlocated := by
  cases error <;> rfl

theorem DecodeError.format_of_unlocated {e : DecodeError} {error : FormatError}
    (h : e.unlocated = format 0 error) : ∃ offset, e = format offset error := by
  cases e <;> cases h
  exact ⟨_, rfl⟩

namespace Cursor

variable {c c' : Cursor} {n m : Nat} {more : List UInt8}

theorem has_extend (h : c.has n = true) (more : List UInt8) : (c.extend more).has n = true := by
  rw [has_iff] at h ⊢
  rw [extend_rest, List.length_append]
  omega

theorem window_extend (h : c.has n = true) (more : List UInt8) :
    (c.extend more).window n = c.window n := by
  rw [has_iff] at h
  simp only [window, extend, List.take_append_of_le_length h]

theorem skip_extend (h : c.has n = true) (more : List UInt8) :
    (c.extend more).skip n = (c.skip n).extend more := by
  rw [has_iff] at h
  simp only [skip, extend, List.drop_append_of_le_length h]

theorem window_extend_of_short (h : ¬ c.has n = true) (more : List UInt8) :
    (c.extend more).window n = c.extend (more.take (n - c.rest.length)) := by
  rw [has_iff] at h
  have short : c.rest.length ≤ n := by omega
  simp only [window, extend, List.take_append, List.take_of_length_le short]

theorem window_of_short (h : ¬ c.has n = true) : c.window n = c := by
  rw [has_iff] at h
  have short : c.rest.length ≤ n := by omega
  simp only [window, List.take_of_length_le short]

theorem skip_skip (c : Cursor) (n m : Nat) : (c.skip n).skip m = c.skip (n + m) := by
  simp only [skip, List.drop_drop, Nat.add_assoc]

theorem Reaches.skip (h : c.Reaches c') : c.skip (c'.offset - c.offset) = c' := by
  obtain ⟨read, rest, offset⟩ := h
  obtain ⟨offset', rest'⟩ := c'
  simp only at rest offset
  subst offset
  simp only [Cursor.skip, Nat.add_sub_cancel_left, rest, List.drop_left]

end Cursor

theorem BodyState.Leads.sections_interleaved {s s' : BodyState} {c : Cursor} (h : s.Leads s')
    (begins : s.sections = .interleaved c) :
    ∃ read, read ≤ c.rest.length ∧ s'.sections = .interleaved (c.skip read) := by
  obtain ⟨-, -, layout, reaches⟩ := h
  rw [begins] at layout reaches
  cases stops : s'.sections with
  | separate _ _ _ =>
    rw [stops] at layout
    cases layout
  | interleaved c' =>
    rw [stops] at reaches
    simp only [Sections.instructions] at reaches
    refine ⟨c'.offset - c.offset, ?_, by rw [reaches.skip]⟩
    have ends := reaches.offset_add_length
    omega

/-- Two decoders in front of a window. They differ in what earlier windows have left behind only,
which no window takes over. -/
structure WindowDecoder.SameStart (d e : WindowDecoder) : Prop where
  phase : d.phase = .header ∧ e.phase = .header
  version : d.version = e.version
  table : d.reader.table = e.reader.table
  sizes : d.cache.sizes = e.cache.sizes

theorem WindowDecoder.inWindow_eq_false {d : WindowDecoder} :
    d.inWindow = false ↔ d.phase = .header := by
  simp only [inWindow]
  split <;> simp [*]

theorem WindowDecoder.SameStart.inWindow {d e : WindowDecoder} (h : d.SameStart e) :
    d.inWindow = e.inWindow := by
  rw [inWindow_eq_false.2 h.phase.1, inWindow_eq_false.2 h.phase.2]

theorem WindowDecoder.SameStart.trans {a b c : WindowDecoder} (hab : a.SameStart b)
    (hbc : b.SameStart c) : a.SameStart c :=
  ⟨⟨hab.phase.1, hbc.phase.2⟩, hab.version.trans hbc.version, hab.table.trans hbc.table,
    hab.sizes.trans hbc.sizes⟩

/-- Two calls that come to the same, but for the places of errors, and for how far a body has got
that waits for more input. -/
def WindowProgress.Alike (p q : WindowProgress) : Prop :=
  match p.outcome, q.outcome with
  | .error e, .error e' => e.unlocated = e'.unlocated
  | .ok .needMoreData, .ok .needMoreData => p.decoder.inWindow = q.decoder.inWindow ∧
      (p.decoder.inWindow = false → p.cursor = q.cursor ∧ p.target = q.target)
  | .ok (.complete start stop), .ok (.complete start' stop') => start = start' ∧ stop = stop' ∧
      p.cursor = q.cursor ∧ p.target = q.target ∧ p.decoder.SameStart q.decoder
  | _, _ => False

namespace WindowProgress

variable {p q r : WindowProgress}

/-- The three ways in which two calls come to the same. -/
inductive AlikeEnds : WindowProgress → WindowProgress → Prop where
  | failed {e e' : DecodeError} {d d' : WindowDecoder} {c c' : Cursor} {target target' : Array UInt8}
      (same : e.unlocated = e'.unlocated) :
      AlikeEnds ⟨.error e, d, c, target⟩ ⟨.error e', d', c', target'⟩
  | waits {d d' : WindowDecoder} {c c' : Cursor} {target target' : Array UInt8}
      (inWindow : d.inWindow = d'.inWindow)
      (place : d.inWindow = false → c = c' ∧ target = target') :
      AlikeEnds ⟨.ok .needMoreData, d, c, target⟩ ⟨.ok .needMoreData, d', c', target'⟩
  | complete {start stop : Nat} {d d' : WindowDecoder} {c : Cursor} {target : Array UInt8}
      (same : d.SameStart d') :
      AlikeEnds ⟨.ok (.complete start stop), d, c, target⟩ ⟨.ok (.complete start stop), d', c, target⟩

theorem Alike.ends (h : p.Alike q) : AlikeEnds p q := by
  obtain ⟨outcome, d, c, target⟩ := p
  obtain ⟨outcome', d', c', target'⟩ := q
  rcases outcome with _ | (_ | _) <;> rcases outcome' with _ | (_ | _) <;>
    first | exact h.elim | skip
  · exact .failed h
  · obtain ⟨rfl, rfl, rfl, rfl, same⟩ := h
    exact .complete same
  · exact .waits h.1 h.2

theorem Alike.trans (h : p.Alike q) (h' : q.Alike r) : p.Alike r := by
  cases h.ends with
  | failed same =>
    cases h'.ends with
    | failed same' => exact same.trans same'
  | waits inWindow place =>
    cases h'.ends with
    | waits inWindow' place' =>
      refine ⟨inWindow.trans inWindow', fun outside => ?_⟩
      obtain ⟨cursor, target⟩ := place outside
      obtain ⟨cursor', target'⟩ := place' (inWindow ▸ outside)
      exact ⟨cursor.trans cursor', target.trans target'⟩
  | complete same =>
    cases h'.ends with
    | complete same' => exact ⟨rfl, rfl, rfl, rfl, same.trans same'⟩

theorem Alike.symm (h : p.Alike q) : q.Alike p := by
  cases h.ends with
  | failed same => exact same.symm
  | waits inWindow place =>
    refine ⟨inWindow.symm, fun outside => ?_⟩
    obtain ⟨cursor, target⟩ := place (inWindow.trans outside)
    exact ⟨cursor.symm, target.symm⟩
  | complete same =>
    exact ⟨rfl, rfl, rfl, rfl, same.phase.symm, same.version.symm, same.table.symm, same.sizes.symm⟩

theorem Alike.of_complete (h : p.Alike q) {start stop : Nat}
    (complete : q.outcome = .ok (.complete start stop)) :
    p.outcome = .ok (.complete start stop) ∧ p.cursor = q.cursor ∧ p.target = q.target := by
  cases h.ends with
  | failed same => cases complete
  | waits inWindow place => cases complete
  | complete same => exact ⟨complete, rfl, rfl⟩

end WindowProgress

namespace WindowDecoder

variable {d e : WindowDecoder} {context : WindowContext} {body : WindowBody} {c : Cursor}
  {target : Array UInt8} {remaining : Nat}

/-- The run of the instructions of an interleaved body. -/
def runInterleaved (d : WindowDecoder) (context : WindowContext) (body : WindowBody)
    (remaining : Nat) (c : Cursor) (target : Array UInt8) : BodyState × BodyEnd :=
  (d.bodyState (.interleaved (c.window remaining)) target).run
    (context.bodyContext body (!c.has remaining))

theorem reaches_runInterleaved (d : WindowDecoder) (context : WindowContext) (body : WindowBody)
    (remaining : Nat) (c : Cursor) (target : Array UInt8) :
    (c.window remaining).Reaches
      (d.runInterleaved context body remaining c target).1.sections.instructions :=
  (BodyState.leads_run (d.bodyState (.interleaved (c.window remaining)) target) _).reaches

/-- What has been consumed is within the body, and is there. -/
theorem resumeInterleaved_eq (d : WindowDecoder) (context : WindowContext) (body : WindowBody)
    (remaining : Nat) (c : Cursor) (target : Array UInt8) :
    let run := d.runInterleaved context body remaining c target
    let consumed := run.1.sections.instructions.offset - c.offset
    d.resumeInterleaved context body remaining c target =
      d.conclude { body with layout := .interleaved (remaining - consumed) } run.1 run.2
        (c.skip consumed) := by
  simp only [resumeInterleaved]
  exact if_pos (consumed_le (reaches_runInterleaved d context body remaining c target))

theorem needMore_of_conclude {s : BodyState} {ending : BodyEnd}
    (h : (d.conclude body s ending c).outcome = .ok .needMoreData) : ending = .needMoreData := by
  simp only [conclude] at h
  split at h
  · rfl
  · cases h
  · cases h
  · split at h <;> cases h

theorem alike_conclude {p q : BodyState × BodyEnd} {layout layout' : BodyLayout} {c c' : Cursor}
    (version : d.version = e.version) (same : BodyState.SameEnd p q)
    (table : p.1.reader.table = q.1.reader.table) (sizes : p.1.cache.sizes = q.1.cache.sizes)
    (place : p.2 = .complete → layout = layout' ∧ c = c') :
    (d.conclude { body with layout := layout } p.1 p.2 c).Alike
      (e.conclude { body with layout := layout' } q.1 q.2 c') := by
  obtain ⟨s, ending⟩ := p
  obtain ⟨t, ending'⟩ := q
  obtain ⟨ends, target, sections⟩ := same
  simp only at ends target sections table sizes place ⊢
  cases ending with
  | needMoreData =>
    cases ending' <;> cases ends
    exact ⟨rfl, fun h => by cases h⟩
  | malformed offset error =>
    cases ending' <;> cases ends
    exact DecodeError.unlocated_locate _ _ _
  | breach =>
    cases ending' <;> cases ends
    rfl
  | complete =>
    cases ending' <;> cases ends
    obtain ⟨rfl, rfl⟩ := place rfl
    simp only [conclude, sections rfl, target]
    cases WindowBody.checkComplete { body with layout := layout } t.sections t.target with
    | error error => exact rfl
    | ok u => exact ⟨rfl, rfl, rfl, rfl, ⟨rfl, rfl⟩, version, table, sizes⟩

theorem runInterleaved_extend (short : ¬ c.has remaining = true) (more : List UInt8) :
    d.runInterleaved context body remaining (c.extend more) target =
      ((d.bodyState (.interleaved c) target).extend (more.take (remaining - c.rest.length))).run
        ((context.bodyContext body true).awaiting (!(c.extend more).has remaining)) := by
  simp only [runInterleaved, Cursor.window_extend_of_short short]
  rfl

theorem runInterleaved_resume {s : BodyState} {read : Nat} (short : ¬ c.has remaining = true)
    (there : read ≤ c.rest.length) (sections : s.sections = .interleaved (c.skip read))
    (more : List UInt8) :
    runInterleaved (d.afterBody body s) context body (remaining - read) ((c.skip read).extend more)
        s.target =
      (s.extend (more.take (remaining - c.rest.length))).run
        ((context.bodyContext body true).awaiting (!(c.extend more).has remaining)) := by
  obtain ⟨reader, cache, _, target⟩ := s
  subst sections
  have length : (c.skip read).rest.length = c.rest.length - read := by
    simp only [Cursor.skip, List.length_drop]
  rw [Cursor.has_iff] at short
  have short' : ¬ (c.skip read).has (remaining - read) = true := by
    rw [Cursor.has_iff, length]
    omega
  have left : remaining - read - (c.skip read).rest.length = remaining - c.rest.length := by
    rw [length]
    omega
  have awaits : ((c.skip read).extend more).has (remaining - read) =
      (c.extend more).has remaining := by
    rw [Bool.eq_iff_iff, Cursor.has_iff, Cursor.has_iff, Cursor.extend_rest, Cursor.extend_rest,
      List.length_append, List.length_append, length]
    omega
  simp only [runInterleaved, Cursor.window_extend_of_short short', left, awaits]
  rfl

/-- An interleaved body that has stalled at the end of the input, beside the body that has more of it
at once. Where both end at the same place, they have left and consumed the same. -/
theorem resumeInterleaved_beside
    (stalled : (d.resumeInterleaved context body remaining c target).outcome = .ok .needMoreData)
    (more : List UInt8) :
    let progress := d.resumeInterleaved context body remaining c target
    let s := d.bodyState (.interleaved c) target
    let waiting := context.bodyContext body true
    (s.run waiting).2 = .needMoreData ∧
      ∃ (more' : List UInt8) (moreAvailable : Bool) (layout layout' : BodyLayout) (c₁ c₂ : Cursor),
        let p := (s.extend more').run (waiting.awaiting moreAvailable)
        let q := ((s.run waiting).1.extend more').run (waiting.awaiting moreAvailable)
        d.resumeInterleaved context body remaining (c.extend more) target =
            d.conclude { body with layout := layout } p.1 p.2 c₁ ∧
          progress.decoder.decode context (progress.cursor.extend more) progress.target =
            d.conclude { body with layout := layout' } q.1 q.2 c₂ ∧
          (p.1.sections = q.1.sections → layout = layout' ∧ c₁ = c₂) := by
  rw [resumeInterleaved_eq] at stalled
  simp only [resumeInterleaved_eq d context body remaining c target]
  have needMore := needMore_of_conclude stalled
  -- A body only waits if its stream goes on behind the input.
  have awaits : (!c.has remaining) = true := BodyState.awaits_of_run needMore
  have short : ¬ c.has remaining = true := by simpa using awaits
  have atOnce : d.runInterleaved context body remaining c target =
      (d.bodyState (.interleaved c) target).run (context.bodyContext body true) := by
    simp only [runInterleaved, awaits, Cursor.window_of_short short]
  rw [atOnce] at needMore ⊢
  refine ⟨needMore, more.take (remaining - c.rest.length), !(c.extend more).has remaining, ?_⟩
  have kept := BodyState.leads_run (d.bodyState (.interleaved c) target)
    (context.bodyContext body true)
  generalize (d.bodyState (.interleaved c) target).run (context.bodyContext body true) = stop at *
  obtain ⟨s, ending⟩ := stop
  simp only at needMore kept
  subst needMore
  obtain ⟨read, there, sections⟩ := kept.sections_interleaved rfl
  have consumed : s.sections.instructions.offset - c.offset = read := by
    rw [sections]
    exact Nat.add_sub_cancel_left _ _
  rw [consumed]
  change ∃ layout layout' c₁ c₂, _ ∧ resumeInterleaved
    (d.afterBody { body with layout := .interleaved (remaining - read) } s) context
    { body with layout := .interleaved (remaining - read) } (remaining - read)
    ((c.skip read).extend more) s.target = _ ∧ _
  have sameContext : context.bodyContext
      { body with layout := .interleaved (remaining - read) } true =
        context.bodyContext body true := rfl
  rw [resumeInterleaved_eq, resumeInterleaved_eq, runInterleaved_extend short,
    runInterleaved_resume short there sections, sameContext]
  refine ⟨_, _, _, _, rfl, rfl, fun same => ?_⟩
  -- Counted from where the body stalled, less has been consumed by what was consumed before.
  have begins : (s.extend (more.take (remaining - c.rest.length))).sections =
      .interleaved ((c.skip read).extend (more.take (remaining - c.rest.length))) := by
    simp only [BodyState.extend, sections, Sections.extend]
  have keptRight := BodyState.leads_run (s.extend (more.take (remaining - c.rest.length)))
    ((context.bodyContext body true).awaiting (!(c.extend more).has remaining))
  obtain ⟨later, -, stops⟩ := keptRight.sections_interleaved begins
  have hasRead : c.has read = true := (c.has_iff read).2 there
  have offset : (Sections.interleaved (((c.skip read).extend
      (more.take (remaining - c.rest.length))).skip later)).instructions.offset =
        c.offset + (read + later) := Nat.add_assoc _ _ _
  have beginsRight : ((c.skip read).extend more).offset = c.offset + read := rfl
  rw [same, stops, offset, beginsRight, Cursor.extend_offset,
    Nat.add_sub_cancel_left, show c.offset + (read + later) - (c.offset + read) = later by omega,
    ← Cursor.skip_extend hasRead, Cursor.skip_skip, Nat.sub_sub]
  exact ⟨rfl, rfl⟩

theorem alike_resumeInterleaved
    (stalled : (d.resumeInterleaved context body remaining c target).outcome = .ok .needMoreData)
    (more : List UInt8) :
    let progress := d.resumeInterleaved context body remaining c target
    (d.resumeInterleaved context body remaining (c.extend more) target).Alike
      (progress.decoder.decode context (progress.cursor.extend more) progress.target) := by
  obtain ⟨needMore, more', moreAvailable, layout, layout', c₁, c₂, left, right, place⟩ :=
    resumeInterleaved_beside stalled more
  have resumed := BodyState.run_resume rfl rfl needMore more' moreAvailable
  have kept := BodyState.leads_run (d.bodyState (.interleaved c) target)
    (context.bodyContext body true)
  have keptLeft := BodyState.leads_run ((d.bodyState (.interleaved c) target).extend more')
    ((context.bodyContext body true).awaiting moreAvailable)
  have keptRight := BodyState.leads_run
    (((d.bodyState (.interleaved c) target).run (context.bodyContext body true)).1.extend more')
    ((context.bodyContext body true).awaiting moreAvailable)
  simp only [left, right]
  refine alike_conclude rfl resumed ?_ ?_ fun complete => place (resumed.2.2 complete)
  · rw [keptLeft.table, keptRight.table]
    exact kept.table.symm
  · rw [keptLeft.sizes, keptRight.sizes]
    exact kept.sizes.symm

/-! ## Calls that do not wait -/

theorem conclude_extend (d : WindowDecoder) (body : WindowBody) (s : BodyState)
    (ending : BodyEnd) (c : Cursor) (more : List UInt8) :
    d.conclude body s ending (c.extend more) =
      { d.conclude body s ending c with cursor := c.extend more } := by
  simp only [conclude, Cursor.extend_offset]
  cases ending with
  | complete => cases body.checkComplete s.sections s.target <;> rfl
  | needMoreData => rfl
  | malformed offset error => rfl
  | breach => rfl

theorem conclude_stream (d : WindowDecoder) (body : WindowBody) (s : BodyState) (ending : BodyEnd)
    (c : Cursor) (more : List UInt8) :
    d.conclude { body with layout := .interleaved remaining } (s.extend more) ending c =
      d.conclude { body with layout := .interleaved remaining } s ending c := by
  cases ending <;> rfl

theorem split?_extend {n : Nat} {piece behind : Cursor} (h : c.split? n = some (piece, behind))
    (more : List UInt8) : (c.extend more).split? n = some (piece, behind.extend more) := by
  simp only [Cursor.split?] at h
  split at h
  · next enough =>
    cases h
    simp only [Cursor.split?, if_pos (Cursor.has_extend enough more),
      Cursor.window_extend enough, Cursor.skip_extend enough]
  · cases h

theorem splitSections?_extend {lengths : SectionLengths} {sections : Sections} {behind : Cursor}
    (h : splitSections? lengths c = some (sections, behind)) (more : List UInt8) :
    splitSections? lengths (c.extend more) = some (sections, behind.extend more) := by
  simp only [splitSections?, Option.bind_eq_bind, Option.bind_eq_some_iff, Option.pure_def] at h ⊢
  obtain ⟨⟨data, c₁⟩, h₁, ⟨instructions, c₂⟩, h₂, ⟨addresses, c₃⟩, h₃, h⟩ := h
  cases h
  exact ⟨_, split?_extend h₁ more, _, split?_extend h₂ more, _, split?_extend h₃ more, rfl⟩

theorem resumeStandard_extend {lengths : SectionLengths} (enough : lengths.total ≤ c.rest.length)
    (more : List UInt8) :
    d.resumeStandard context body lengths (c.extend more) target =
      { d.resumeStandard context body lengths c target with
        cursor := (d.resumeStandard context body lengths c target).cursor.extend more } := by
  have there := splitSections?_eq enough
  simp only [resumeStandard, splitSections?_extend there more, there, conclude_extend,
    cursor_conclude]

theorem resumeInterleaved_extend
    (final : (d.resumeInterleaved context body remaining c target).outcome ≠ .ok .needMoreData)
    (more : List UInt8) :
    d.resumeInterleaved context body remaining (c.extend more) target =
      { d.resumeInterleaved context body remaining c target with
        cursor := (d.resumeInterleaved context body remaining c target).cursor.extend more } := by
  have reaches := reaches_runInterleaved d context body remaining c target
  have hasRead := (consumed_le reaches).2
  rw [resumeInterleaved_eq] at final
  simp only [resumeInterleaved_eq d context body remaining, cursor_conclude]
  by_cases whole : c.has remaining = true
  · have same : d.runInterleaved context body remaining (c.extend more) target =
        d.runInterleaved context body remaining c target := by
      simp only [runInterleaved, Cursor.window_extend whole, whole, Cursor.has_extend whole more]
    rw [same, Cursor.extend_offset, Cursor.skip_extend hasRead, conclude_extend]
  · have needsNoMore : (d.runInterleaved context body remaining c target).2 ≠ .needMoreData := by
      intro needMore
      rw [needMore] at final
      exact final rfl
    have awaits : (!c.has remaining) = true := by simpa using whole
    have extended := BodyState.run_extend rfl awaits needsNoMore
      (more.take (remaining - c.rest.length)) (!(c.extend more).has remaining)
    have same : d.runInterleaved context body remaining (c.extend more) target =
        ((d.runInterleaved context body remaining c target).1.extend
            (more.take (remaining - c.rest.length)),
          (d.runInterleaved context body remaining c target).2) := by
      rw [Cursor.window_of_short whole] at extended
      rw [runInterleaved_extend whole]
      simp only [runInterleaved, Cursor.window_of_short whole]
      exact extended
    have offset (s : BodyState) (bytes : List UInt8) :
        (s.extend bytes).sections.instructions.offset = s.sections.instructions.offset := by
      obtain ⟨_, _, sections, _⟩ := s
      cases sections <;> rfl
    rw [same]
    simp only [conclude_stream, offset]
    rw [Cursor.extend_offset, Cursor.skip_extend hasRead, conclude_extend]

theorem readHeader_extend (final : (d.readHeader context c).1 ≠ .error .needMoreData)
    (more : List UInt8) : d.readHeader context (c.extend more) =
      ((d.readHeader context c).1, (d.readHeader context c).2.extend more) :=
  WindowHeader.stable_parse _ _ (.ofCursor c) more final

theorem layout_enter (d : WindowDecoder) (header : WindowHeader) (windowStart : Nat) :
    (d.enter header windowStart).1.layout =
      if header.isInterleaved d.version then .interleaved header.sections.instructions
      else .standard header.sections := rfl

theorem resume_enter_extend {header : WindowHeader}
    (enough : (header.isInterleaved d.version || c.has header.sections.total) = true)
    (final : ((d.enter header target.size).2.resume context (d.enter header target.size).1 c
      target).outcome ≠ .ok .needMoreData) (more : List UInt8) :
    (d.enter header target.size).2.resume context (d.enter header target.size).1 (c.extend more)
        target =
      { (d.enter header target.size).2.resume context (d.enter header target.size).1 c target with
        cursor := ((d.enter header target.size).2.resume context (d.enter header target.size).1 c
          target).cursor.extend more } := by
  simp only [resume, layout_enter] at final ⊢
  cases interleaved : header.isInterleaved d.version with
  | true =>
    rw [interleaved] at final
    exact resumeInterleaved_extend final more
  | false =>
    rw [interleaved, Bool.false_or, Cursor.has_iff] at enough
    exact resumeStandard_extend enough more

/-! ### In front of a window -/

theorem decode_cases (phase : d.phase = .header) (context : WindowContext) (c : Cursor)
    (target : Array UInt8) :
    d.decode context c target = ⟨.ok .needMoreData, d, c, target⟩ ∨
      (∃ stop s, d.readHeader context c = (.error stop, s) ∧ stop ≠ .needMoreData) ∨
      ∃ header s, d.readHeader context c = (.ok header, s) ∧
        (header.isInterleaved d.version || s.cursor.has header.sections.total) = true := by
  rcases read : d.readHeader context c with ⟨outcome, s⟩
  cases outcome with
  | error stop =>
    by_cases needMore : stop = .needMoreData
    · subst needMore
      exact .inl (by simp only [decode, phase, read])
    · exact .inr (.inl ⟨stop, s, rfl, needMore⟩)
  | ok header =>
    by_cases enough : (header.isInterleaved d.version || s.cursor.has header.sections.total) = true
    · exact .inr (.inr ⟨header, s, rfl, enough⟩)
    · left
      simp only [decode, phase, read]
      rw [if_neg enough]

theorem decode_stops (phase : d.phase = .header) {stop : ParseStop} {s : HeaderState}
    (read : d.readHeader context c = (.error stop, s)) (final : stop ≠ .needMoreData) :
    ∃ error, d.decode context c target = ⟨.error error, d, c, target⟩ ∧
      ∀ more, d.decode context (c.extend more) target = ⟨.error error, d, c.extend more, target⟩ := by
  have extended (more : List UInt8) : d.readHeader context (c.extend more) =
      (.error stop, s.extend more) := by
    have same := @readHeader_extend d context c
    rw [read] at same
    exact same (fun h => final (Except.error.inj h)) more
  cases stop with
  | needMoreData => exact absurd rfl final
  | malformed error =>
    refine ⟨.locate s.cursor.offset error, by simp only [decode, phase, read], ?_⟩
    intro more
    simp only [decode, phase, extended]
    rfl
  | breach =>
    refine ⟨.breach, by simp only [decode, phase, read], ?_⟩
    intro more
    simp only [decode, phase, extended]

theorem enough_extend {interleaved : Bool} {n : Nat} (enough : (interleaved || c.has n) = true)
    (more : List UInt8) : (interleaved || (c.extend more).has n) = true := by
  rw [Bool.or_eq_true] at enough ⊢
  exact enough.imp_right fun there => Cursor.has_extend there more

theorem decode_enters (phase : d.phase = .header) {header : WindowHeader} {s : HeaderState}
    (read : d.readHeader context c = (.ok header, s))
    (enough : (header.isInterleaved d.version || s.cursor.has header.sections.total) = true) :
    d.decode context c target = (d.enter header target.size).2.resume context
        (d.enter header target.size).1 s.cursor target ∧
      ∀ more, d.decode context (c.extend more) target = (d.enter header target.size).2.resume context
        (d.enter header target.size).1 (s.cursor.extend more) target := by
  refine ⟨?_, fun more => ?_⟩
  · simp only [decode, phase, read]
    rw [if_pos enough]
  · have extended := @readHeader_extend d context c
    rw [read] at extended
    simp only [decode, phase, extended (fun h => by cases h) more]
    exact if_pos (enough_extend enough more)

/-- Where a body is read, if it is there. -/
def sectionsAt? (layout : BodyLayout) (c : Cursor) : Option Sections :=
  match layout with
  | .standard lengths => (splitSections? lengths c).map Prod.fst
  | .interleaved remaining => some (.interleaved (c.window remaining))

/-- The body that a call is about, with the decoder in it and the place where it is read: the body in
progress, or the one that the call enters. -/
def entered? (d : WindowDecoder) (context : WindowContext) (c : Cursor) (target : Array UInt8) :
    Option (WindowBody × WindowDecoder × Cursor) :=
  match d.phase with
  | .body body => some (body, d, c)
  | .header =>
    match d.readHeader context c with
    | (.ok header, s) =>
      if header.isInterleaved d.version || s.cursor.has header.sections.total then
        some ((d.enter header target.size).1, (d.enter header target.size).2, s.cursor)
      else none
    | _ => none

theorem entered_cases {c' : Cursor} (h : d.entered? context c target = some (body, e, c')) :
    (d.phase = .body body ∧ e = d ∧ c' = c) ∨
      d.phase = .header ∧ ∃ header s, d.readHeader context c = (.ok header, s) ∧
        (header.isInterleaved d.version || s.cursor.has header.sections.total) = true ∧
        body = (d.enter header target.size).1 ∧ e = (d.enter header target.size).2 ∧
        c' = s.cursor := by
  cases phase : d.phase with
  | body body =>
    simp only [entered?, phase, Option.some.injEq, Prod.mk.injEq] at h
    obtain ⟨rfl, rfl, rfl⟩ := h
    exact .inl ⟨rfl, rfl, rfl⟩
  | header =>
    rcases read : d.readHeader context c with ⟨outcome, s⟩
    simp only [entered?, phase, read] at h
    split at h
    · next header s same =>
      cases same
      split at h
      · next enough =>
        cases h
        exact .inr ⟨rfl, header, s, rfl, enough, rfl, rfl, rfl⟩
      · cases h
    · cases h

theorem decode_entered {c' : Cursor} (h : d.entered? context c target = some (body, e, c')) :
    d.decode context c target = e.resume context body c' target := by
  rcases entered_cases h with ⟨phase, rfl, rfl⟩ | ⟨phase, header, s, read, enough, rfl, rfl, rfl⟩
  · simp only [decode, phase]
  · exact (decode_enters phase read enough).1

theorem entered_extend {c' : Cursor} (h : d.entered? context c target = some (body, e, c'))
    (more : List UInt8) :
    d.entered? context (c.extend more) target = some (body, e, c'.extend more) := by
  rcases entered_cases h with ⟨phase, rfl, rfl⟩ | ⟨phase, header, s, read, enough, rfl, rfl, rfl⟩
  · simp only [entered?, phase]
  · have extended := @readHeader_extend d context c
    rw [read] at extended
    simp only [entered?, phase, extended (fun h => by cases h) more]
    exact if_pos (enough_extend enough more)

theorem reader_entered {c' : Cursor} (h : d.entered? context c target = some (body, e, c')) :
    e.reader = d.reader ∨ e.reader = d.reader.reset := by
  rcases entered_cases h with ⟨-, rfl, rfl⟩ | ⟨-, header, s, -, -, -, rfl, -⟩
  · exact .inl rfl
  · exact .inr rfl

theorem decode_not_entered (h : d.entered? context c target = none) :
    ∃ outcome, d.decode context c target = ⟨outcome, d, c, target⟩ ∧
      ∀ start stop, outcome ≠ .ok (.complete start stop) := by
  cases phase : d.phase with
  | body body =>
    simp only [entered?, phase] at h
    cases h
  | header =>
    rcases decode_cases phase context c target with
      waits | ⟨stop, s, read, final⟩ | ⟨header, s, read, enough⟩
    · exact ⟨_, waits, fun _ _ h => by cases h⟩
    · obtain ⟨error, stopped, -⟩ := @decode_stops d context c target phase _ _ read final
      exact ⟨_, stopped, fun _ _ h => by cases h⟩
    · simp only [entered?, phase, read, enough, if_true] at h
      cases h

theorem sound_entered {c' : Cursor} (ready : d.Ready context target)
    (h : d.entered? context c target = some (body, e, c')) :
    e.Valid ∧ body.Sound context target ∧ ∃ sections, sectionsAt? body.layout c' = some sections := by
  rcases entered_cases h with ⟨phase, rfl, rfl⟩ | ⟨phase, header, s, read, enough, rfl, rfl, rfl⟩
  · obtain ⟨sound, remaining, layout⟩ := ready.body _ phase
    exact ⟨ready.valid, sound, _, by rw [layout]; rfl⟩
  · obtain ⟨-, -, yields⟩ := WindowHeader.safe_parse (context.headerContext d.version)
      (context.config.checkLength context.decoded) (.ofCursor c) _ _
      (HeaderState.started_ofCursor c) read
    refine ⟨ready.valid, sound_enter (ready.header phase) (yields header rfl), ?_⟩
    rw [layout_enter]
    cases interleaved : header.isInterleaved d.version with
    | true => exact ⟨_, rfl⟩
    | false =>
      rw [interleaved, Bool.false_or, Cursor.has_iff] at enough
      rw [if_neg (by decide), sectionsAt?, splitSections?_eq enough]
      exact ⟨_, rfl⟩

/-- A call that does not wait for more input is the same with more input behind it. -/
theorem decode_extend (ready : d.Ready context target)
    (final : (d.decode context c target).outcome ≠ .ok .needMoreData) (more : List UInt8) :
    d.decode context (c.extend more) target =
      { d.decode context c target with
        cursor := (d.decode context c target).cursor.extend more } := by
  cases phase : d.phase with
  | body body =>
    -- Only an interleaved body lasts from one call to the next.
    obtain ⟨-, remaining, layout⟩ := ready.body body phase
    simp only [decode, phase, resume, layout] at final ⊢
    exact resumeInterleaved_extend final more
  | header =>
    rcases decode_cases phase context c target with
      waits | ⟨stop, s, read, needsNoMore⟩ | ⟨header, s, read, enough⟩
    · rw [waits] at final
      exact absurd rfl final
    · obtain ⟨error, stopped, stopped'⟩ := @decode_stops d context c target phase _ _ read needsNoMore
      rw [stopped', stopped]
    · obtain ⟨entered, entered'⟩ := @decode_enters d context c target phase _ _ read enough
      rw [entered] at final ⊢
      rw [entered']
      exact resume_enter_extend enough final more

/-! ## Calls that wait -/

theorem alike_refl {progress : WindowProgress} (sound : progress.Sound context) :
    progress.Alike progress := by
  obtain ⟨outcome, decoder, cursor, target⟩ := progress
  rcases outcome with error | status
  · exact rfl
  · cases status with
    | needMoreData => exact ⟨rfl, fun _ => ⟨rfl, rfl⟩⟩
    | complete start stop =>
      obtain ⟨-, phase, -⟩ := sound.complete start stop rfl
      exact ⟨rfl, rfl, rfl, rfl, ⟨phase, phase⟩, rfl, rfl, rfl⟩

theorem resumeStandard_final {lengths : SectionLengths} :
    (d.resumeStandard context body lengths c target).outcome ≠ .ok .needMoreData := by
  simp only [resumeStandard]
  split
  · intro h
    cases h
  · intro stalled
    exact Bool.noConfusion (BodyState.awaits_of_run (needMore_of_conclude stalled))

theorem resumeInterleaved_final (there : c.has remaining = true) :
    (d.resumeInterleaved context body remaining c target).outcome ≠ .ok .needMoreData := by
  rw [resumeInterleaved_eq]
  intro stalled
  have awaits : (!c.has remaining) = true :=
    BodyState.awaits_of_run (needMore_of_conclude stalled)
  rw [there] at awaits
  cases awaits

theorem decode_whole (phase : d.phase = .header) {header : WindowHeader} {s : HeaderState}
    (read : d.readHeader context c = (.ok header, s))
    (there : s.cursor.has header.sections.total = true) :
    (d.decode context c target).outcome ≠ .ok .needMoreData := by
  have enough : (header.isInterleaved d.version || s.cursor.has header.sections.total) = true := by
    rw [there, Bool.or_true]
  rw [(@decode_enters d context c target phase _ _ read enough).1, resume, layout_enter]
  cases header.isInterleaved d.version with
  | true =>
    rw [Cursor.has_iff] at there
    have instructions : header.sections.instructions ≤ header.sections.total := by
      simp only [SectionLengths.total]
      omega
    exact resumeInterleaved_final ((Cursor.has_iff _ _).2 (Nat.le_trans instructions there))
  | false => exact resumeStandard_final

theorem cursor_waits (phase : d.phase = .header)
    (stalled : (d.decode context c target).outcome = .ok .needMoreData)
    (outside : (d.decode context c target).decoder.inWindow = false) :
    (d.decode context c target).cursor = c := by
  rcases decode_cases phase context c target with
    waits | ⟨stop, s, read, final⟩ | ⟨header, s, read, enough⟩
  · rw [waits]
  · obtain ⟨error, stopped, -⟩ := @decode_stops d context c target phase _ _ read final
    rw [stopped] at stalled
    cases stalled
  · rw [(@decode_enters d context c target phase _ _ read enough).1, resume, layout_enter]
      at stalled outside
    cases interleaved : header.isInterleaved d.version with
    | true =>
      rw [interleaved, if_pos rfl] at stalled outside
      simp only [resumeInterleaved_eq] at stalled outside
      simp only [conclude, needMore_of_conclude stalled] at outside
      cases outside
    | false =>
      rw [interleaved, if_neg (by decide)] at stalled
      exact absurd stalled resumeStandard_final

/-- A call that waits for more input has consumed nothing, or it is about an interleaved body. -/
theorem stalled_decode (stalled : (d.decode context c target).outcome = .ok .needMoreData) :
    d.decode context c target = ⟨.ok .needMoreData, d, c, target⟩ ∨
      ∃ body e c' remaining, d.entered? context c target = some (body, e, c') ∧
        body.layout = .interleaved remaining ∧ ∀ more, d.decode context (c.extend more) target =
          e.resumeInterleaved context body remaining (c'.extend more) target := by
  cases entered : d.entered? context c target with
  | none =>
    obtain ⟨outcome, same, -⟩ := decode_not_entered entered
    rw [same] at stalled ⊢
    simp only at stalled
    exact .inl (by rw [stalled])
  | some p =>
    obtain ⟨body, e, c'⟩ := p
    cases layout : body.layout with
    | standard lengths =>
      rw [decode_entered entered, resume, layout] at stalled
      exact absurd stalled resumeStandard_final
    | interleaved remaining =>
      refine .inr ⟨body, e, c', remaining, rfl, layout, fun more => ?_⟩
      rw [decode_entered (entered_extend entered more), resume, layout]

/-- A call that waits for more input goes on when there is more as it would have gone on at once. -/
theorem decode_resume (ready : d.Ready context target)
    (stalled : (d.decode context c target).outcome = .ok .needMoreData) (more : List UInt8) :
    (d.decode context (c.extend more) target).Alike
      ((d.decode context c target).decoder.decode context
        ((d.decode context c target).cursor.extend more) (d.decode context c target).target) := by
  rcases stalled_decode stalled with waits | ⟨body, e, c', remaining, -, -, resumes⟩
  · rw [waits]
    exact alike_refl (sound_decode ready (c.extend more))
  · have first := resumes []
    rw [Cursor.extend_nil, Cursor.extend_nil] at first
    rw [first] at stalled ⊢
    rw [resumes more]
    exact alike_resumeInterleaved stalled more

/-! ## Any number of pieces -/

/-- Offers the input in pieces. Each call has what the call before it has left, and the next piece.
-/
def feed (d : WindowDecoder) (context : WindowContext) (c : Cursor) (target : Array UInt8) :
    (pieces : List (List UInt8)) → WindowProgress
  | [] => d.decode context c target
  | piece :: rest =>
    let progress := d.decode context c target
    match progress.outcome with
    | .ok .needMoreData =>
      progress.decoder.feed context (progress.cursor.extend piece) progress.target rest
    | _ => { progress with cursor := progress.cursor.extend (piece ++ rest.flatten) }

theorem feed_waits {piece : List UInt8} {rest : List (List UInt8)}
    (stalled : (d.decode context c target).outcome = .ok .needMoreData) :
    d.feed context c target (piece :: rest) = (d.decode context c target).decoder.feed context
      ((d.decode context c target).cursor.extend piece) (d.decode context c target).target rest := by
  simp only [feed, stalled]

theorem feed_final {piece : List UInt8} {rest : List (List UInt8)}
    (final : (d.decode context c target).outcome ≠ .ok .needMoreData) :
    d.feed context c target (piece :: rest) = { d.decode context c target with
      cursor := (d.decode context c target).cursor.extend (piece ++ rest.flatten) } := by
  simp only [feed]

theorem alike_feed (ready : d.Ready context target) (c : Cursor) (pieces : List (List UInt8)) :
    (d.decode context (c.extend pieces.flatten) target).Alike (d.feed context c target pieces) := by
  -- By the pieces. Once a call does not wait any more, the other pieces are only what follows.
  induction pieces generalizing d c target with
  | nil =>
    rw [List.flatten_nil, Cursor.extend_nil]
    exact alike_refl (sound_decode ready c)
  | cons piece rest ih =>
    rw [List.flatten_cons]
    by_cases stalled : (d.decode context c target).outcome = .ok .needMoreData
    · have resumed := decode_resume ready stalled (piece ++ rest.flatten)
      have later := ih ((sound_decode ready c).needMore stalled)
        ((d.decode context c target).cursor.extend piece)
      rw [feed_waits stalled]
      rw [Cursor.extend_extend] at later
      exact resumed.trans later
    · have extended := decode_extend ready stalled (piece ++ rest.flatten)
      have sound := sound_decode ready (c.extend (piece ++ rest.flatten))
      rw [feed_final stalled, ← extended]
      exact alike_refl sound

/-- What a decoder does in front of a window does not depend on what earlier windows have left
behind, which it carries along until it enters the window. -/
theorem decode_sameStart {e : WindowDecoder} (same : d.SameStart e) (context : WindowContext)
    (c : Cursor) (target : Array UInt8) :
    d.decode context c target = e.decode context c target ∨
      ∃ outcome, (∀ start stop, outcome ≠ .ok (.complete start stop)) ∧
        d.decode context c target = ⟨outcome, d, c, target⟩ ∧
        e.decode context c target = ⟨outcome, e, c, target⟩ := by
  obtain ⟨⟨phase, phase'⟩, version, table, sizes⟩ := same
  have read : d.readHeader context c = e.readHeader context c := by
    simp only [readHeader, version]
  have entered (header : WindowHeader) :
      d.enter header target.size = e.enter header target.size := by
    simp only [enter, version, InstructionReader.reset, AddressCache.reset, table, sizes]
  simp only [decode, phase, phase', read]
  cases e.readHeader context c with
  | mk outcome s =>
    cases outcome with
    | error stop =>
      cases stop with
      | needMoreData => exact .inr ⟨.ok .needMoreData, (fun _ _ h => by cases h), rfl, rfl⟩
      | malformed error =>
        exact .inr ⟨.error (.locate s.cursor.offset error), (fun _ _ h => by cases h), rfl, rfl⟩
      | breach => exact .inr ⟨.error .breach, (fun _ _ h => by cases h), rfl, rfl⟩
    | ok header =>
      simp only [version, entered]
      split
      · exact .inl rfl
      · exact .inr ⟨.ok .needMoreData, (fun _ _ h => by cases h), rfl, rfl⟩

end WindowDecoder

end DeltaCoding
