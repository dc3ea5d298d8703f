import DeltaCoding.Proofs.Encoder
import DeltaCoding.Proofs.Writer.Refusal

namespace DeltaCoding

/-! ## One chunk -/

namespace Encoder

variable {e : Encoder} {w : DeltaWriter} {dictionary history : Array UInt8}

/-- A chunk is passed over, refused, or accepted with a window that decoders read back. -/
theorem encodeChunk_cases (chunk : Array UInt8) (writer : e.writer = some (.delta w))
    (usable : w.Usable) (recalls : e.Recalls dictionary history) :
    (chunk = #[] ∧ e.encodeChunk chunk = (.ok [], e)) ∨
    ∃ w', w.Persists w' ∧
      ((∃ error, e.encodeChunk chunk = (.error error, e.refused (.delta w'))) ∨
        ∃ bytes, e.encodeChunk chunk = (.ok bytes, e.accepted (.delta w') chunk) ∧
          (chunk.size ≤ DeltaWriter.maxTarget → bytes ≠ [] ∧
            ∀ d : WindowDecoder, d.Follows w e.options.checksum →
              d.Reads dictionary history bytes chunk)) := by
  by_cases empty : chunk = #[]
  · subst empty
    exact .inl ⟨rfl, encodeChunk_empty writer⟩
  obtain ⟨opening, within, -, -, covers, encoded⟩ := encodeChunk_target writer recalls empty
  have persists := w.persists_writeTarget opening (e.found chunk) e.options.checksum chunk
  rcases wrote : w.writeTarget opening (e.found chunk) e.options.checksum chunk with
    ⟨error | bytes, w'⟩
  · rw [wrote] at encoded persists
    exact .inr ⟨w', persists, .inl ⟨error, encoded⟩⟩
  · rw [wrote] at encoded persists
    refine .inr ⟨w', persists, .inr ⟨bytes, encoded, ?_⟩⟩
    intro small
    obtain ⟨w₁, w₂, opened, written, -⟩ := DeltaWriter.writeTarget_ok.1 wrote
    obtain ⟨bytes', w'', wrote', bytes_ne, -, reads⟩ := DeltaWriter.closes_target usable within
      opened (covers small) written small empty e.options.checksum
    cases wrote.symm.trans wrote'
    exact ⟨bytes_ne, reads⟩

/-- No window is handed out for edits that make more than its length field can hold. -/
theorem encodeChunk_overlong {chunk : Array UInt8} (writer : e.writer = some (.delta w))
    (usable : w.Usable) (recalls : e.Recalls dictionary history) (nonempty : chunk ≠ #[])
    (long : ∀ source, maxField < (Edit.replayAll source (e.found chunk)).size) :
    ∃ error, (e.encodeChunk chunk).1 = .error error := by
  obtain ⟨opening, within, -, -, -, encoded⟩ := encodeChunk_target writer recalls nonempty
  rcases wrote : w.writeTarget opening (e.found chunk) e.options.checksum chunk with
    ⟨error | bytes, w'⟩
  · rw [wrote] at encoded
    exact ⟨error, congrArg Prod.fst encoded⟩
  · -- Had the edits been accepted, the window would be as long as what they make.
    obtain ⟨w₁, w₂, opened, written, -⟩ := DeltaWriter.writeTarget_ok.1 wrote
    obtain ⟨holds, -⟩ := DeltaWriter.holds_edits (DeltaWriter.usable_call usable opened)
      (DeltaWriter.holds_call (Opening.length_segment within) opened) written
    have field := holds.field
    rw [holds.targetLength] at field
    exact absurd (long (opening.source dictionary history)) (Nat.not_lt.2 field)

theorem encodeChunk_uniform {chunk : Array UInt8} {byte : UInt8} (writer : e.writer = some (.delta w))
    (usable : w.Usable) (recalls : e.Recalls dictionary history) (uniform : ∀ b ∈ chunk, b = byte)
    (size : chunk.size = maxField + 1) : ∃ error, (e.encodeChunk chunk).1 = .error error := by
  apply encodeChunk_overlong writer usable recalls
  · intro empty
    rw [empty] at size
    exact absurd size.symm (Nat.succ_ne_zero _)
  · intro source
    have limits : maxField = Match.maxEdit := rfl
    rw [found, Match.findEdits_uniform _ _ uniform size]
    simp only [Edit.replayAll, List.foldl_cons, List.foldl_nil, Edit.size_replay, Edit.size,
      List.length_cons, List.length_nil]
    omega

theorem encodeChunk_oversized {chunk : Array UInt8} (writer : e.writer = some (.delta w))
    (idle : w.state = .idle) (first : e.previous = none) (nonempty : chunk ≠ #[])
    (large : maxField < e.index.dictionary.size) :
    (e.encodeChunk chunk).1 = .error (.tooLarge .sourceSegmentLength e.index.dictionary.size) := by
  have source : e.nextSource = (e.index, fun writer => writer.openWindow e.index.dictionary.size) := by
    simp only [nextSource, first]
    split
    · next present => cases present
    · rfl
  have refused : w.openWindow e.index.dictionary.size =
      (.error (.tooLarge .sourceSegmentLength e.index.dictionary.size), w) := by
    simp only [DeltaWriter.openWindow, DeltaWriter.openSegment, idle]
    rw [if_pos (Nat.zero_lt_of_lt large)]
    exact if_pos large
  rw [encodeChunk_window writer nonempty, source]
  simp only [writeWindow, Writer.openWindow, refused, Prod.map, id]

end Encoder

/-! ## Sessions that go on -/

/-- A session in progress. -/
structure Encoding where
  encoder : Encoder
  /-- The delta so far. -/
  out : List UInt8
  /-- The chunks that have been accepted, one behind the other. -/
  target : Array UInt8

namespace Encoding

variable {dictionary : Array UInt8} {w : DeltaWriter} {r : Encoding}

/-- Asks for a chunk to be encoded, and goes on whether it is accepted or refused. -/
def offer (r : Encoding) (chunk : Array UInt8) : Encoding :=
  match r.encoder.encodeChunk chunk with
  | (.error _, e) => { r with encoder := e }
  | (.ok bytes, e) => ⟨e, r.out ++ bytes, r.target ++ chunk⟩

/-- Behind what has been handed out, decoders stand in front of windows of the writer, with the chunks
that have been accepted as their history. -/
def Followed (r : Encoding) (dictionary : Array UInt8) (w : DeltaWriter) : Prop :=
  ∀ rest, ∃ d : WindowDecoder, d.Follows w r.encoder.options.checksum ∧
    (Session.start dictionary {}).run ⟨0, r.out ++ rest⟩ {} =
      (Session.start dictionary {}).runWindows ⟨d, r.target, r.target.size⟩ ⟨r.out.length, rest⟩
        ⟨r.target, none⟩

/-- The writer can be used as in the beginning, in a window or not, what may be referred to is there,
and decoders follow as long as their limit allows it. -/
structure Sound (dictionary : Array UInt8) (w : DeltaWriter) (r : Encoding) : Prop where
  writer : r.encoder.writer = some (.delta w)
  usable : w.Usable
  recalls : r.encoder.Recalls dictionary r.target
  followed : r.target.size ≤ DeltaWriter.maxTarget → r.Followed dictionary w

theorem Followed.refused {w' : DeltaWriter} (followed : r.Followed dictionary w)
    (format : w.SameFormat w') (writer : Writer) :
    Followed { r with encoder := r.encoder.refused writer } dictionary w' := by
  intro rest
  obtain ⟨d, follows, ran⟩ := followed rest
  exact ⟨d, follows.next ⟨⟨follows.phase, follows.phase⟩, rfl, rfl, rfl⟩ format, ran⟩

theorem Followed.accepted {w' : DeltaWriter} {bytes : List UInt8} {chunk : Array UInt8}
    (followed : r.Followed dictionary w) (format : w.SameFormat w')
    (small : r.target.size + chunk.size ≤ DeltaWriter.maxTarget) (bytes_ne : bytes ≠ [])
    (reads : ∀ d : WindowDecoder, d.Follows w r.encoder.options.checksum →
      d.Reads dictionary r.target bytes chunk) (writer : Writer) :
    Followed ⟨r.encoder.accepted writer chunk, r.out ++ bytes, r.target ++ chunk⟩ dictionary w' := by
  intro rest
  obtain ⟨d, follows, ran⟩ := followed (bytes ++ rest)
  obtain ⟨d', same, read⟩ := @WindowRun.run_reads dictionary r.target chunk {} none
    ⟨r.target, none⟩ d bytes (reads d follows) bytes_ne (fun h => by cases h) rfl
    (Encoder.checkLength_default small) rfl r.out.length rest
  refine ⟨d', follows.next same format, ?_⟩
  simp only
  rw [List.append_assoc, ran, List.length_append]
  simp only [Session.runWindows, Session.start, read]

theorem sound_offer (sound : Sound dictionary w r) (chunk : Array UInt8) :
    ∃ w', Sound dictionary w' (r.offer chunk) := by
  obtain ⟨writer, usable, recalls, followed⟩ := sound
  rcases Encoder.encodeChunk_cases chunk writer usable recalls with
    ⟨rfl, passed⟩ | ⟨w', persists, ⟨error, refused⟩ | ⟨bytes, accepted, reads⟩⟩
  · refine ⟨w, ?_⟩
    simp only [offer, passed, List.append_nil, Array.append_empty]
    exact ⟨writer, usable, recalls, followed⟩
  · refine ⟨w', ?_⟩
    simp only [offer, refused]
    exact ⟨rfl, persists.usable usable, recalls.refused _, fun small =>
      (followed small).refused persists.toSameFormat _⟩
  · refine ⟨w', ?_⟩
    simp only [offer, accepted]
    refine ⟨rfl, persists.usable usable, recalls.accepted _ chunk, ?_⟩
    intro small
    rw [Array.size_append] at small
    obtain ⟨bytes_ne, reads⟩ := reads (by omega)
    exact (followed (by omega)).accepted persists.toSameFormat small bytes_ne reads _

theorem sound_offers (sound : Sound dictionary w r) (chunks : List (Array UInt8)) :
    ∃ w', Sound dictionary w' (chunks.foldl offer r) := by
  induction chunks generalizing w r with
  | nil => exact ⟨w, sound⟩
  | cons chunk rest ih =>
    obtain ⟨w₁, sound₁⟩ := sound_offer sound chunk
    exact ih sound₁

theorem Sound.decodeMemory (sound : Sound dictionary w r)
    (small : r.target.size ≤ DeltaWriter.maxTarget) :
    decodeMemory dictionary r.out = .ok r.target := by
  obtain ⟨d, follows, ran⟩ := sound.followed small []
  have stops := @WindowRun.run_stops dictionary {} none ⟨r.out.length, []⟩ ⟨r.target, none⟩
    ⟨d, r.target, r.target.size⟩ (.inr rfl)
  rw [List.append_nil] at ran
  simp only [Session.runWindows, Session.start, stops] at ran
  refine decodeMemory_ok ran ?_
  simp only [Session.isComplete, WindowDecoder.inWindow, follows.phase]
  rfl

/-! ## From the start -/

theorem of_start {e₀ e : Encoder} {header : List UInt8} (started : e₀.start = (.ok header, e)) :
    e₀.writer = none ∧ ∃ writer, e₀.options.writer = .ok writer := by
  simp only [Encoder.start] at started
  split at started
  · cases started
  · next idle =>
    refine ⟨by simpa using idle, ?_⟩
    cases made : e₀.options.writer with
    | error error =>
      rw [made] at started
      cases started
    | ok writer => exact ⟨writer, rfl⟩

theorem sound_start {e₀ e : Encoder} {header : List UInt8} (binary : e₀.options.json = false)
    (started : e₀.start = (.ok header, e)) :
    ∃ w, Sound e₀.index.dictionary w ⟨e, header, #[]⟩ := by
  obtain ⟨idle, writer, usable⟩ := of_start started
  have tables : ∀ own, e₀.options.codeTable = some own →
      ∃ w, DeltaWriter.withTable e₀.options.interleaved own.near own.same own.table = .ok w := by
    intro own custom
    simp only [EncodeOptions.writer, binary, custom, Bool.false_eq_true, if_false] at usable
    cases made : DeltaWriter.withTable e₀.options.interleaved own.near own.same own.table with
    | error error =>
      rw [made] at usable
      cases usable
    | ok w => exact ⟨w, rfl⟩
  obtain ⟨w, header', made, written, between, d, follows, led⟩ :=
    e₀.options.writer_accepted binary tables
  cases started.symm.trans (Encoder.start_ok idle made written)
  refine ⟨w, rfl, between.usable, e₀.recalls_startedWith _, ?_⟩
  intro _ rest
  refine ⟨d, follows, ?_⟩
  rw [led, Nat.zero_add]
  rfl

/-- A chunk that is refused never damages the delta. Whatever chunks a session is given, in whatever
order they are accepted and refused, a refusal changes neither the delta nor its counters, and as long
as the accepted chunks come to no more than decoders accept by default, the delta so far is decoded to
exactly these chunks. -/
theorem offers_undamaged {e₀ e : Encoder} {header : List UInt8} (binary : e₀.options.json = false)
    (started : e₀.start = (.ok header, e)) (chunks : List (Array UInt8)) :
    let r := chunks.foldl offer ⟨e, header, #[]⟩
    (∀ chunk error, (r.encoder.encodeChunk chunk).1 = .error error →
      (r.offer chunk).out = r.out ∧ (r.offer chunk).target = r.target ∧
      (r.offer chunk).encoder.windows = r.encoder.windows ∧
      (r.offer chunk).encoder.targetBytes = r.encoder.targetBytes) ∧
    (r.target.size ≤ 64 * 1024 * 1024 →
      decodeMemory e₀.index.dictionary r.out = .ok r.target) := by
  obtain ⟨w₀, sound₀⟩ := sound_start binary started
  obtain ⟨w, sound⟩ := sound_offers sound₀ chunks
  refine ⟨?_, sound.decodeMemory⟩
  intro chunk error failed
  rcases Encoder.encodeChunk_cases chunk sound.writer sound.usable sound.recalls with
    ⟨rfl, passed⟩ | ⟨w', persists, ⟨error', refused⟩ | ⟨bytes, accepted, -⟩⟩
  · rw [passed] at failed
    cases failed
  · simp only [offer, refused, true_and]
    exact ⟨rfl, rfl⟩
  · rw [accepted] at failed
    cases failed

/-- A dictionary that is too long is refused with each chunk. And behind a chunk that has been accepted
one is refused that is too long for its window. -/
theorem offers_undamaged_oversized :
    (let e₀ := Encoder.ofDictionary (Array.replicate (maxField + 1) 0) { previousTarget := true }
      let header := FileHeader.toBytes ⟨.standard, none⟩
      e₀.options.json = false ∧ ∃ e, e₀.start = (.ok header, e) ∧
        (e.encodeChunk #[7]).1 = .error (.tooLarge .sourceSegmentLength (maxField + 1)) ∧
        (offer ⟨e, header, #[]⟩ #[7]).target = #[] ∧
        decodeMemory (Array.replicate (maxField + 1) 0) (offer ⟨e, header, #[]⟩ #[7]).out = .ok #[]) ∧
    (let e₀ := Encoder.ofDictionary #[1, 2] {}
      let header := FileHeader.toBytes ⟨.standard, none⟩
      let long := Array.replicate (maxField + 1) 0
      e₀.options.json = false ∧ ∃ e, e₀.start = (.ok header, e) ∧
        let r := offer ⟨e, header, #[]⟩ #[7]
        r.target = #[7] ∧ (∃ error, (r.encoder.encodeChunk long).1 = .error error) ∧
        (r.offer long).encoder.windows = r.encoder.windows ∧ (r.offer long).target = #[7] ∧
        decodeMemory #[1, 2] (r.offer long).out = .ok #[7]) := by
  constructor
  · -- Only the size of the dictionary matters.
    obtain ⟨dictionary, replicated, size⟩ : ∃ dictionary : Array UInt8,
        dictionary = Array.replicate (maxField + 1) 0 ∧ dictionary.size = maxField + 1 :=
      ⟨_, rfl, Array.size_replicate⟩
    rw [← replicated]
    intro e₀ header
    have same : e₀.index.dictionary = dictionary := DictionaryIndex.dictionary_ofDictionary dictionary
    have started : e₀.start = (.ok header, e₀.startedWith (.delta (.standard false))) :=
      Encoder.start_ok rfl rfl rfl
    have refused : ((e₀.startedWith (.delta (.standard false))).encodeChunk #[7]).1 =
        .error (.tooLarge .sourceSegmentLength (maxField + 1)) := by
      rw [← size, ← same]
      refine Encoder.encodeChunk_oversized rfl rfl rfl (fun h => by cases h) ?_
      change maxField < e₀.index.dictionary.size
      rw [same, size]
      exact Nat.lt_succ_self maxField
    obtain ⟨-, target, -, -⟩ := (offers_undamaged rfl started []).1 #[7] _ refused
    have decoded := (offers_undamaged rfl started [#[7]]).2
    simp only [List.foldl_cons, List.foldl_nil] at target decoded
    rw [target, same] at decoded
    exact ⟨rfl, _, started, refused, target, decoded (Nat.zero_le _)⟩
  · -- Only the size and the bytes of the long chunk matter.
    obtain ⟨long, replicated, size, uniform⟩ : ∃ long : Array UInt8,
        long = Array.replicate (maxField + 1) 0 ∧ long.size = maxField + 1 ∧ ∀ b ∈ long, b = 0 :=
      ⟨_, rfl, Array.size_replicate, fun b mem => Array.eq_of_mem_replicate mem⟩
    rw [← replicated]
    intro e₀ header
    have started : e₀.start = (.ok header, e₀.startedWith (.delta (.standard false))) :=
      Encoder.start_ok rfl rfl rfl
    have recalls := e₀.recalls_startedWith (.delta (.standard false))
    rw [show e₀.index.dictionary = #[1, 2] from DictionaryIndex.dictionary_ofDictionary _] at recalls
    obtain ⟨bytes, e, w, accepted, -, stands, -⟩ := @Encoder.encodeChunk_accepted _ _ _ _ #[7]
      ⟨rfl, .standard false, recalls⟩ (by decide) (by decide) (by decide)
    obtain ⟨error, refused⟩ := Encoder.encodeChunk_uniform stands.writer stands.between.usable
      stands.recalls uniform size
    have offered : offer ⟨e₀.startedWith (.delta (.standard false)), header, #[]⟩ #[7] =
        ⟨e, header ++ bytes, #[7]⟩ := by
      simp only [offer, accepted]
      rfl
    have behind := (offers_undamaged rfl started [#[7]]).1 long error
    have decoded := (offers_undamaged rfl started [#[7], long]).2
    simp only [List.foldl_cons, List.foldl_nil, offered] at behind decoded
    obtain ⟨-, target, windows, -⟩ := behind refused
    rw [target] at decoded
    refine ⟨rfl, _, started, ?_⟩
    simp only [offered]
    exact ⟨trivial, ⟨error, refused⟩, windows, target, decoded (by decide)⟩

end Encoding

end DeltaCoding
