import DeltaCoding.Proofs.Window.RoundTrip

namespace DeltaCoding

/-- The sections have been read to their ends. -/
structure Sections.UsedUp (sections : Sections) : Prop where
  data : sections.data.rest = []
  instructions : sections.instructions.rest = []
  addresses : sections.addresses.rest = []

theorem WindowProgress.Alike.of_format {p q : WindowProgress} (h : p.Alike q) {offset : Nat}
    {error : FormatError} (failed : p.outcome = .error (.format offset error)) :
    ∃ offset', q.outcome = .error (.format offset' error) := by
  cases h.ends with
  | failed same =>
    cases failed
    obtain ⟨offset', rfl⟩ := DecodeError.format_of_unlocated same.symm
    exact ⟨offset', rfl⟩
  | waits inWindow place => cases failed
  | complete same => cases failed

namespace WindowBody

theorem checkSections_of_usedUp {sections : Sections} (used : sections.UsedUp)
    (lengths : SectionLengths) : checkSections (.standard lengths) sections = .ok () := by
  simp only [checkSections, Cursor.remaining, used.data, used.instructions, used.addresses]
  rfl

end WindowBody

namespace WindowDecoder

variable {d : WindowDecoder} {context : WindowContext} {body : WindowBody} {c : Cursor}
  {history made : Array UInt8} {header : WindowHeader} {error : FormatError}

/-- The body at `c` makes `made`: it is there as a whole, and its instructions, carried out over its
sections, use them up and append `made` to the target of earlier windows. Whether `made` is what was
encoded is left open. -/
structure Rebuilds (d : WindowDecoder) (context : WindowContext) (history : Array UInt8)
    (header : WindowHeader) (c : Cursor) (made : Array UInt8) : Prop where
  there : header.sections.total ≤ c.rest.length
  carriedOut : ∃ sections s, sectionsAt? (d.enter header history.size).1.layout c = some sections ∧
    ((d.enter header history.size).2.bodyState sections history).run
      (context.bodyContext (d.enter header history.size).1 false) = (s, .complete) ∧
    s.sections.UsedUp ∧ s.target = history ++ made

theorem conclude_refused {s : BodyState} {layout : BodyLayout}
    (used : WindowBody.checkSections layout s.sections = .ok ())
    (refused : body.checkChecksum s.target = .error error) :
    (d.conclude { body with layout := layout } s .complete c).outcome =
      .error (.locate c.offset error) := by
  simp only [conclude, WindowBody.checkComplete_used used, refused]

theorem resumeStandard_refused {lengths : SectionLengths} {sections : Sections} {s : BodyState}
    (there : lengths.total ≤ c.rest.length) (layout : body.layout = .standard lengths)
    (starts : sectionsAt? (.standard lengths) c = some sections)
    (run : (d.bodyState sections history).run (context.bodyContext body false) = (s, .complete))
    (used : s.sections.UsedUp) (refused : body.checkChecksum s.target = .error error) :
    (d.resumeStandard context body lengths c history).outcome =
      .error (.locate (c.offset + lengths.total) error) := by
  have split := splitSections?_eq there
  rw [sectionsAt?, split] at starts
  cases starts
  rw [resumeStandard_eq split layout, run,
    conclude_refused (WindowBody.checkSections_of_usedUp used lengths) refused]
  simp only [Cursor.skip, SectionLengths.total, Nat.add_assoc]

theorem resumeInterleaved_refused {remaining : Nat} {s : BodyState}
    (there : remaining ≤ c.rest.length)
    (run : (d.bodyState (.interleaved (c.window remaining)) history).run
      (context.bodyContext body false) = (s, .complete))
    (used : s.sections.UsedUp) (refused : body.checkChecksum s.target = .error error) :
    (d.resumeInterleaved context body remaining c history).outcome =
      .error (.locate (c.offset + remaining) error) := by
  have whole : c.has remaining = true := (c.has_iff remaining).2 there
  have ran : d.runInterleaved context body remaining c history = (s, .complete) := by
    rw [runInterleaved, whole]
    exact run
  have reaches := (reaches_runInterleaved d context body remaining c history).offset_add_length
  rw [ran, used.instructions] at reaches
  simp only [Cursor.window, List.length_take, Nat.min_eq_left there, List.length_nil, Nat.add_zero]
    at reaches
  rw [resumeInterleaved_eq]
  simp only [ran, reaches, Nat.add_sub_cancel_left, Nat.sub_self]
  exact conclude_refused (by rfl) refused

/-- At `c` there is a window with a checksum, and its body makes `made`. -/
def Checksummed (d : WindowDecoder) (context : WindowContext) (history : Array UInt8) (c : Cursor)
    (checksum : Nat) (made : Array UInt8) : Prop :=
  ∃ header s, d.readHeader context c = (.ok header, s) ∧
    header.sections.checksum = some checksum ∧ d.Rebuilds context history header s.cursor made

/-- A window that is there as a whole, and whose checksum is not that of what its body makes, is
refused. -/
theorem decode_mismatch (phase : d.phase = .header) {checksum : Nat}
    (window : d.Checksummed context history c checksum made)
    (other : (Checksum.adler32 made.toList).toNat ≠ checksum) :
    ∃ offset, (d.decode context c history).outcome = .error (.format offset
      (.checksumMismatch checksum (Checksum.adler32 made.toList).toNat)) := by
  obtain ⟨header, s, read, present, there, sections, t, starts, run, used, target⟩ := window
  have refused : (d.enter header history.size).1.checkChecksum t.target =
      .error (.checksumMismatch checksum (Checksum.adler32 made.toList).toNat) := by
    rw [target]
    exact (WindowBody.checkChecksum_append rfl present).trans (if_neg other)
  have enough : (header.isInterleaved d.version || s.cursor.has header.sections.total) = true := by
    rw [(s.cursor.has_iff _).2 there, Bool.or_true]
  rw [(decode_enters phase read enough).1, resume]
  have layout := d.layout_enter header history.size
  cases interleaved : header.isInterleaved d.version with
  | true =>
    rw [interleaved, if_pos rfl] at layout
    rw [layout] at starts ⊢
    cases starts
    have instructions : header.sections.instructions ≤ header.sections.total := by
      simp only [SectionLengths.total]
      omega
    exact ⟨_, resumeInterleaved_refused (Nat.le_trans instructions there) run used refused⟩
  | false =>
    rw [interleaved, if_neg (by decide)] at layout
    rw [layout] at starts ⊢
    exact ⟨_, resumeStandard_refused there layout starts run used refused⟩

theorem feed_mismatch (ready : d.Ready context history) (phase : d.phase = .header)
    {pieces : List (List UInt8)} {checksum : Nat}
    (window : d.Checksummed context history (c.extend pieces.flatten) checksum made)
    (other : (Checksum.adler32 made.toList).toNat ≠ checksum) :
    ∃ offset, (d.feed context c history pieces).outcome = .error (.format offset
      (.checksumMismatch checksum (Checksum.adler32 made.toList).toNat)) := by
  obtain ⟨offset, refused⟩ := decode_mismatch phase window other
  exact (alike_feed ready c pieces).of_format refused

end WindowDecoder

end DeltaCoding
