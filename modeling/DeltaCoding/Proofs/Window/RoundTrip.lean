import DeltaCoding.Proofs.Header.RoundTrip
import DeltaCoding.Proofs.Window.Cutting
import DeltaCoding.Proofs.Window.Reading

namespace DeltaCoding

namespace Cursor

variable {c c' : Cursor} {bytes : List UInt8}

theorem Takes.window (h : c.Takes bytes c') : (c.window bytes.length).Takes bytes ⟨c'.offset, []⟩ := by
  obtain ⟨rest, offset⟩ := h
  refine ⟨?_, offset⟩
  simp only [Cursor.window, rest, List.append_nil, List.take_left]

theorem Takes.skip (h : c.Takes bytes c') : c.skip bytes.length = c' := by
  obtain ⟨rest, offset⟩ := h
  obtain ⟨offset', rest'⟩ := c'
  simp only at rest offset
  simp only [Cursor.skip, rest, List.drop_left, offset]

theorem Takes.has (h : c.Takes bytes c') : c.has bytes.length = true := by
  rw [has_iff, h.1, List.length_append]
  omega

end Cursor

/-- The sections of a body are as long as its header says. -/
structure SectionLengths.Describes (lengths : SectionLengths) (bytes : SectionBytes) : Prop where
  data : lengths.data = bytes.data.length
  instructions : lengths.instructions = bytes.instructions.length
  addresses : lengths.addresses = bytes.addresses.length

/-- All bytes of a body, as they stand behind the header. -/
def SectionBytes.toList (bytes : SectionBytes) : List UInt8 :=
  bytes.data ++ (bytes.instructions ++ bytes.addresses)

theorem SectionLengths.Describes.total {lengths : SectionLengths} {bytes : SectionBytes}
    (h : lengths.Describes bytes) : lengths.total = bytes.toList.length := by
  simp only [SectionLengths.total, h.data, h.instructions, h.addresses, SectionBytes.toList,
    List.length_append, Nat.add_assoc]

theorem WindowHeader.isInterleaved_iff {header : WindowHeader} {version : Version}
    {bytes : SectionBytes} (describes : header.sections.Describes bytes) :
    header.isInterleaved version = true ↔
      version.hasExtensions = true ∧ bytes.data = [] ∧ bytes.addresses = [] := by
  simp only [isInterleaved, SectionLengths.instructionsOnly, Bool.and_eq_true, beq_iff_eq,
    describes.data, describes.addresses, List.length_eq_zero_iff]

theorem WindowBody.checkChecksum_append {body : WindowBody} {history made : Array UInt8}
    {checksum : Nat} (starts : history.size = body.windowStart)
    (present : body.checksum = some checksum) :
    body.checkChecksum (history ++ made) =
      if (Checksum.adler32 made.toList).toNat = checksum then .ok ()
      else .error (.checksumMismatch checksum (Checksum.adler32 made.toList).toNat) := by
  have output : (history ++ made).extract body.windowStart (history ++ made).size = made := by
    rw [← starts, Array.size_append, Array.extract_append_right, Array.extract_size]
  simp only [checkChecksum, present, output]

theorem WindowBody.checkComplete_used {body : WindowBody} {layout : BodyLayout} {sections : Sections}
    {target : Array UInt8} (used : checkSections layout sections = .ok ()) :
    checkComplete { body with layout := layout } sections target = body.checkChecksum target := by
  rw [checkComplete, used]
  rfl

namespace WindowDecoder

variable {d : WindowDecoder} {context : WindowContext} {body : WindowBody} {c c' : Cursor}
  {history out target : Array UInt8} {bytes : SectionBytes} {cache : AddressCache}

/-- The body is in front of its first instruction, and its bytes make `out`. -/
structure Begins (d : WindowDecoder) (context : WindowContext) (body : WindowBody)
    (history out : Array UInt8) (interleaved : Bool) (bytes : SectionBytes) (cache : AddressCache) :
    Prop where
  pending : d.reader.pending = none
  fresh : d.cache = .empty d.cache.sizes
  within : AddressSpace.Within ⟨context.dictionary, body.segment, body.windowStart⟩
  windowStart : history.size = body.windowStart
  targetLength : out.size = body.targetLength
  makes : Makes d.reader.table interleaved d.cache.sizes
    (AddressSpace.source ⟨context.dictionary, body.segment, body.windowStart⟩ history) out bytes cache
  checksum : ∀ n ∈ body.checksum, n = (Checksum.adler32 out.toList).toNat

/-- However the bytes are cut off from what follows them, the instructions of the body use them up
and complete its target. -/
def Exhausts (d : WindowDecoder) (context : WindowContext) (body : WindowBody)
    (history target : Array UInt8) (interleaved : Bool) (bytes : SectionBytes) : Prop :=
  ∀ sections sections' : Sections, sections.isInterleaved = interleaved →
    sections.Takes bytes sections' → ∀ moreAvailable, ∃ s,
      (d.bodyState sections history).run (context.bodyContext body moreAvailable) = (s, .complete) ∧
        s.sections = sections' ∧ s.target = target

theorem exhausts_of_begins {interleaved : Bool}
    (begins : d.Begins context body history out interleaved bytes cache) :
    d.Exhausts context body history (history ++ out) interleaved bytes := by
  intro sections sections' layout takes moreAvailable
  obtain ⟨s, run, rfl, -, stands⟩ := @BodyState.run_makes_complete
    (d.bodyState sections history) (context.bodyContext body moreAvailable) _ _ _ _ _ _ _ _ begins.makes
    ⟨begins.within, begins.windowStart, by simp [bodyState]⟩
    ⟨rfl, begins.pending, begins.fresh, layout⟩ takes begins.targetLength
  exact ⟨s, run, rfl, stands.target⟩

theorem checkChecksum_of_begins {interleaved : Bool}
    (begins : d.Begins context body history out interleaved bytes cache) :
    body.checkChecksum (history ++ out) = .ok () := by
  cases present : body.checksum with
  | none => simp only [WindowBody.checkChecksum, present]
  | some n =>
    rw [WindowBody.checkChecksum_append begins.windowStart present]
    exact if_pos (begins.checksum n present).symm

theorem conclude_complete {s : BodyState} {layout : BodyLayout}
    (used : WindowBody.checkSections layout s.sections = .ok ())
    (checked : body.checkChecksum s.target = .ok ()) :
    d.conclude { body with layout := layout } s .complete c =
      ⟨.ok (.complete body.windowStart s.target.size),
        { d with phase := .header, reader := s.reader, cache := s.cache }, c, s.target⟩ := by
  simp only [conclude, WindowBody.checkComplete_used used, checked, afterBody]

theorem resumeInterleaved_exhausts
    (exhausts : d.Exhausts context body history target true bytes)
    (checked : body.checkChecksum target = .ok ()) (data : bytes.data = [])
    (addresses : bytes.addresses = []) (takes : c.Takes bytes.instructions c') :
    ∃ s : BodyState, s.reader.table = d.reader.table ∧ s.cache.sizes = d.cache.sizes ∧
      d.resumeInterleaved context body bytes.instructions.length c history =
        ⟨.ok (.complete body.windowStart target.size),
          { d with phase := .header, reader := s.reader, cache := s.cache }, c', target⟩ := by
  have stream : (Sections.interleaved (c.window bytes.instructions.length)).Takes bytes
      (.interleaved ⟨c'.offset, []⟩) := ⟨data, addresses, takes.window⟩
  obtain ⟨s, run, sections, rfl⟩ := exhausts _ _ rfl stream (!c.has bytes.instructions.length)
  have kept := BodyState.leads_run
    (d.bodyState (.interleaved (c.window bytes.instructions.length)) history)
    (context.bodyContext body (!c.has bytes.instructions.length))
  rw [run] at kept
  refine ⟨s, kept.table, kept.sizes, ?_⟩
  rw [resumeInterleaved_eq]
  simp only [runInterleaved, run, sections, Sections.instructions, takes.2, Nat.add_sub_cancel_left,
    Nat.sub_self, takes.skip]
  exact conclude_complete (by rfl) checked

theorem resumeStandard_exhausts {lengths : SectionLengths}
    (exhausts : d.Exhausts context body history target false bytes)
    (checked : body.checkChecksum target = .ok ()) (layout : body.layout = .standard lengths)
    (describes : lengths.Describes bytes) (takes : c.Takes bytes.toList c') :
    ∃ s : BodyState, s.reader.table = d.reader.table ∧ s.cache.sizes = d.cache.sizes ∧
      d.resumeStandard context body lengths c history =
        ⟨.ok (.complete body.windowStart target.size),
          { d with phase := .header, reader := s.reader, cache := s.cache }, c', target⟩ := by
  have enough : lengths.total ≤ c.rest.length := by
    rw [describes.total, takes.1, List.length_append]
    omega
  obtain ⟨c₁, data, takes⟩ := takes.split
  obtain ⟨c₂, instructions, addresses⟩ := takes.split
  have split := splitSections?_eq enough
  rw [describes.data, describes.instructions, describes.addresses, data.skip, instructions.skip,
    addresses.skip] at split
  have sections : (Sections.separate (c.window bytes.data.length)
      (c₁.window bytes.instructions.length) (c₂.window bytes.addresses.length)).Takes bytes
        (.separate ⟨c₁.offset, []⟩ ⟨c₂.offset, []⟩ ⟨c'.offset, []⟩) :=
    ⟨data.window, instructions.window, addresses.window⟩
  obtain ⟨s, run, used, rfl⟩ := exhausts _ _ rfl sections false
  have kept := BodyState.leads_run (d.bodyState (.separate (c.window bytes.data.length)
    (c₁.window bytes.instructions.length) (c₂.window bytes.addresses.length)) history)
    (context.bodyContext body false)
  rw [run] at kept
  refine ⟨s, kept.table, kept.sizes, ?_⟩
  rw [resumeStandard_eq split layout, run]
  refine conclude_complete ?_ checked
  rw [used]
  rfl

theorem decode_exhausts {header : WindowHeader} (phase : d.phase = .header)
    (exhausts : (d.enter header history.size).2.Exhausts context (d.enter header history.size).1
      history target (header.isInterleaved d.version) bytes)
    (checked : (d.enter header history.size).1.checkChecksum target = .ok ())
    (describes : header.sections.Describes bytes)
    (fits : header.Fits (context.headerContext d.version)
      (context.config.checkLength context.decoded)) (fields : header.Fields)
    (extensions : header.sections.checksum.isSome = true → d.version.hasExtensions = true)
    (takes : c.Takes (header.toBytes ++ bytes.toList) c') :
    ∃ d', d.decode context c history =
        ⟨.ok (.complete history.size target.size), d', c', target⟩ ∧ d.SameStart d' := by
  obtain ⟨c₁, head, body⟩ := takes.split
  obtain ⟨s, read, rfl⟩ := WindowHeader.parse_toBytes fits fields extensions head
  have decoded (enough : (header.isInterleaved d.version || s.cursor.has header.sections.total) =
      true) : d.decode context c history = (d.enter header history.size).2.resume context
        (d.enter header history.size).1 s.cursor history := (decode_enters phase read enough).1
  cases layout : header.isInterleaved d.version with
  | true =>
    rw [layout] at exhausts
    obtain ⟨-, data, addresses⟩ := (WindowHeader.isInterleaved_iff describes).1 layout
    rw [SectionBytes.toList, data, addresses, List.append_nil, List.nil_append] at body
    obtain ⟨t, table, sizes, resumed⟩ :=
      resumeInterleaved_exhausts exhausts checked data addresses body
    have laidOut : (d.enter header history.size).1.layout =
        .interleaved bytes.instructions.length := by
      simp [layout_enter, layout, describes.instructions]
    rw [decoded (by rw [layout]; rfl), resume, laidOut]
    exact ⟨_, resumed, ⟨phase, rfl⟩, rfl, table.symm, sizes.symm⟩
  | false =>
    rw [layout] at exhausts
    have laidOut : (d.enter header history.size).1.layout = .standard header.sections := by
      simp [layout_enter, layout]
    obtain ⟨t, table, sizes, resumed⟩ :=
      resumeStandard_exhausts exhausts checked laidOut describes body
    rw [decoded (by rw [layout, describes.total, body.has]; rfl), resume, laidOut]
    exact ⟨_, resumed, ⟨phase, rfl⟩, rfl, table.symm, sizes.symm⟩

/-- A window is decoded to what its body makes, whatever follows it. -/
theorem decode_makes {header : WindowHeader} {interleaved : Bool} (phase : d.phase = .header)
    (size : history.size = context.historySize)
    (makes : Makes d.reader.table interleaved d.cache.sizes
      (AddressSpace.source ⟨context.dictionary, header.segment, history.size⟩ history) out bytes
      cache)
    (targetLength : out.size = header.targetLength) (describes : header.sections.Describes bytes)
    (fits : header.Fits (context.headerContext d.version)
      (context.config.checkLength context.decoded)) (fields : header.Fields)
    (checksum : ∀ n ∈ header.sections.checksum, n = (Checksum.adler32 out.toList).toNat)
    (extensions : interleaved = true ∨ header.sections.checksum.isSome = true →
      d.version.hasExtensions = true)
    (takes : c.Takes (header.toBytes ++ bytes.toList) c') :
    ∃ d', d.decode context c history =
        ⟨.ok (.complete history.size (history.size + out.size)), d', c', history ++ out⟩ ∧
      d.SameStart d' := by
  have sound := @sound_enter d context history header size fits
  -- A body that is read as one stream has to be written as one. A standard one with nothing but
  -- instructions is.
  have makes' : Makes d.reader.table (header.isInterleaved d.version) d.cache.sizes
      (AddressSpace.source ⟨context.dictionary, header.segment, history.size⟩ history) out bytes
      cache := by
    cases interleaved with
    | true =>
      have layout : header.isInterleaved d.version = true :=
        (WindowHeader.isInterleaved_iff describes).2 ⟨extensions (.inl rfl), makes.stream⟩
      rw [layout]
      exact makes
    | false =>
      cases layout : header.isInterleaved d.version with
      | false => exact makes
      | true =>
        obtain ⟨-, data, addresses⟩ := (WindowHeader.isInterleaved_iff describes).1 layout
        exact makes.interleaved_of_empty data addresses
  have begins : (d.enter header history.size).2.Begins context (d.enter header history.size).1
      history out (header.isInterleaved d.version) bytes cache :=
    ⟨rfl, rfl, sound.space false, rfl, targetLength, makes', checksum⟩
  have decoded := decode_exhausts phase (exhausts_of_begins begins) (checkChecksum_of_begins begins)
    describes fits fields (fun present => extensions (.inr present)) takes
  rwa [Array.size_append] at decoded

end WindowDecoder

end DeltaCoding
