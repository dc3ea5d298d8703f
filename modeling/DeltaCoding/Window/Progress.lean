import DeltaCoding.Window.Decoder

namespace DeltaCoding

namespace Cursor

theorem reaches_of_split? {c piece behind : Cursor} {n : Nat}
    (h : c.split? n = some (piece, behind)) : c.Reaches behind := by
  unfold split? at h
  split at h
  · next hn =>
    cases h
    exact reaches_skip ((c.has_iff n).1 hn)
  · cases h

end Cursor

namespace WindowDecoder

/-- How much there is to do at most: two for each byte, and one for a body in progress. -/
def workBound (decoder : WindowDecoder) (c : Cursor) : Nat :=
  2 * c.rest.length + if decoder.inWindow then 1 else 0

theorem reaches_of_splitSections? {lengths : SectionLengths} {c behind : Cursor}
    {sections : Sections} (h : splitSections? lengths c = some (sections, behind)) :
    c.Reaches behind := by
  simp only [splitSections?, Option.bind_eq_bind, Option.bind_eq_some_iff, Option.pure_def] at h
  obtain ⟨⟨data, c₁⟩, h₁, ⟨instructions, c₂⟩, h₂, ⟨addresses, c₃⟩, h₃, h⟩ := h
  cases h
  exact ((Cursor.reaches_of_split? h₁).trans (Cursor.reaches_of_split? h₂)).trans
    (Cursor.reaches_of_split? h₃)

theorem cursor_conclude (decoder : WindowDecoder) (body : WindowBody) (s : BodyState)
    (ending : BodyEnd) (c : Cursor) : (decoder.conclude body s ending c).cursor = c := by
  simp only [conclude]
  split
  · rfl
  · rfl
  · rfl
  · split <;> rfl

/-- A complete window is behind the decoder. -/
theorem inWindow_conclude {decoder : WindowDecoder} {body : WindowBody} {s : BodyState}
    {ending : BodyEnd} {c : Cursor} {start stop : Nat}
    (h : (decoder.conclude body s ending c).outcome = .ok (.complete start stop)) :
    (decoder.conclude body s ending c).decoder.inWindow = false := by
  simp only [conclude] at h ⊢
  split at h
  · cases h
  · cases h
  · cases h
  · split at h
    · cases h
    · next hc => simp only [inWindow]

theorem reaches_resume (decoder : WindowDecoder) (context : WindowContext) (body : WindowBody)
    (c : Cursor) (target : Array UInt8) :
    c.Reaches (decoder.resume context body c target).cursor := by
  simp only [resume]
  split
  · simp only [resumeStandard]
    split
    · exact .refl _
    · next h =>
      rw [cursor_conclude]
      exact reaches_of_splitSections? h
  · simp only [resumeInterleaved]
    split
    · next h =>
      rw [cursor_conclude]
      exact Cursor.reaches_skip ((c.has_iff _).1 h.2)
    · exact .refl _

theorem inWindow_resume {decoder : WindowDecoder} {context : WindowContext} {body : WindowBody}
    {c : Cursor} {target : Array UInt8} {start stop : Nat}
    (h : (decoder.resume context body c target).outcome = .ok (.complete start stop)) :
    (decoder.resume context body c target).decoder.inWindow = false := by
  unfold resume at h ⊢
  split
  · next hl =>
    simp only [hl, resumeStandard] at h ⊢
    split
    · next hs =>
      simp only [hs] at h
      cases h
    · next hs =>
      simp only [hs] at h
      exact inWindow_conclude h
  · next hl =>
    simp only [hl, resumeInterleaved] at h ⊢
    split
    · next hc =>
      rw [if_pos hc] at h
      exact inWindow_conclude h
    · next hc =>
      rw [if_neg hc] at h
      cases h

theorem workBound_decode {decoder : WindowDecoder} {context : WindowContext} {c : Cursor}
    {target : Array UInt8} {start stop : Nat}
    (h : (decoder.decode context c target).outcome = .ok (.complete start stop)) :
    (decoder.decode context c target).decoder.workBound (decoder.decode context c target).cursor <
      decoder.workBound c := by
  cases hphase : decoder.phase with
  | body body =>
    simp only [decode, hphase] at h ⊢
    have hin := inWindow_resume h
    have hle := (reaches_resume decoder context body c target).length_le
    simp only [workBound, hin]
    simp only [inWindow, hphase]
    simp
    omega
  | header =>
    simp only [decode, hphase] at h ⊢
    split at h
    · cases h
    · cases h
    · cases h
    · next header s hparse =>
      split at h
      · next henough =>
        simp only [henough, if_true] at h ⊢
        have hin := inWindow_resume h
        have hle := (reaches_resume (decoder.enter header target.size).2 context
          (decoder.enter header target.size).1 s.cursor target).length_le
        have hshort := WindowHeader.consuming_parse _ _ _ _ _ hparse
        simp only [HeaderState.ofCursor] at hshort
        simp only [workBound, hin]
        simp
        omega
      · cases h

theorem reaches_decode (decoder : WindowDecoder) (context : WindowContext) (c : Cursor)
    (target : Array UInt8) : c.Reaches (decoder.decode context c target).cursor := by
  simp only [decode]
  split
  · exact reaches_resume _ _ _ _ _
  · split
    · exact .refl _
    · exact .refl _
    · exact .refl _
    · next header s run =>
      have reach := WindowHeader.forward_parse (context.headerContext decoder.version)
        (context.config.checkLength context.decoded) (.ofCursor c)
      simp only [readHeader] at run
      rw [run] at reach
      split
      · exact reach.trans (reaches_resume _ _ _ _ _)
      · exact .refl _

end WindowDecoder

end DeltaCoding
