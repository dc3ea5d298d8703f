import DeltaCoding.Encoder
import DeltaCoding.Proofs.Decoder.RoundTrip
import DeltaCoding.Proofs.Match.Finder

namespace DeltaCoding

/-! ## Windows -/

namespace Writer

theorem edits_delta (w : DeltaWriter) (es : List Edit) :
    (delta w).edits es = (w.edits es).map id delta := by
  induction es generalizing w with
  | nil => rfl
  | cons e rest ih =>
    simp only [DeltaWriter.edits, edits, edit]
    rcases w.edit e with ⟨_ | ⟨⟩, w₁⟩
    · rfl
    · exact ih w₁

end Writer

namespace Encoder

variable {e : Encoder} {w : DeltaWriter} {dictionary history chunk : Array UInt8}

theorem writeWindow_delta {index : DictionaryIndex} {openIt : Writer → Writer.Call Unit}
    {opening : Opening} (options : EncodeOptions) (chunk : Array UInt8)
    (opens : openIt (.delta w) = (opening.call w).map id .delta) :
    writeWindow (.delta w) options index openIt chunk =
      (w.writeTarget opening (Match.findEdits index options.targetMatches chunk) options.checksum
        chunk).map id .delta := by
  have checked (w : DeltaWriter) : (if options.checksum then
        Writer.setChecksum (.delta w) (Checksum.adler32 chunk.toList).toNat else .delta w) =
      Writer.delta (if options.checksum then
        w.setChecksum (Checksum.adler32 chunk.toList).toNat else w) := by
    split <;> rfl
  simp only [writeWindow, opens, DeltaWriter.writeTarget]
  rcases opening.call w with ⟨_ | ⟨⟩, w₁⟩
  · rfl
  · have edited := Writer.edits_delta w₁ (Match.findEdits index options.targetMatches chunk)
    simp only [Prod.map, id] at edited ⊢
    rw [edited]
    rcases w₁.edits (Match.findEdits index options.targetMatches chunk) with ⟨_ | ⟨⟩, w₂⟩
    · rfl
    · simp only [checked]
      rfl

/-! ## Chunks -/

/-- What the next window may refer to stands in the dictionary or in `history`. -/
structure Recalls (e : Encoder) (dictionary history : Array UInt8) : Prop where
  dictionary : e.index.dictionary = dictionary
  targetBytes : e.targetBytes = history.size
  previous : ∀ position target, e.previous = some (position, target) →
    position + target.size ≤ history.size ∧
      history.extract position (position + target.size) = target

theorem Recalls.nextSource (recalls : e.Recalls dictionary history) (w : DeltaWriter) :
    ∃ opening : Opening, e.nextSource.2 (.delta w) = (opening.call w).map id .delta ∧
      (dictionary.size + history.size ≤ maxField → opening.Addressable) ∧
      opening.Within dictionary history ∧
      e.nextSource.1.dictionary = opening.source dictionary history ∧
      e.nextSource.1.dictionary.size ≤ dictionary.size + history.size := by
  simp only [Encoder.nextSource]
  split
  · next position target _ present =>
    obtain ⟨inside, same⟩ := recalls.previous position target present
    refine ⟨.target position target.size, rfl, fun field => ⟨by omega, by omega⟩, inside, ?_, ?_⟩
    · rw [DictionaryIndex.dictionary_ofDictionary]
      exact same.symm
    · rw [DictionaryIndex.dictionary_ofDictionary]
      omega
  · rw [recalls.dictionary]
    exact ⟨.dictionary dictionary.size, rfl, Nat.le_trans (Nat.le_add_right _ _), Nat.le_refl _,
      Array.extract_size.symm, Nat.le_add_right _ _⟩

/-- The session behind a chunk that a window has been written for. -/
def accepted (e : Encoder) (writer : Writer) (chunk : Array UInt8) : Encoder :=
  { e with
    writer := some writer
    previous := if e.options.previousTarget then some (e.targetBytes, chunk) else none
    targetBytes := e.targetBytes + chunk.size
    windows := e.windows + 1 }

theorem Recalls.accepted (recalls : e.Recalls dictionary history) (writer : Writer)
    (chunk : Array UInt8) : (e.accepted writer chunk).Recalls dictionary (history ++ chunk) := by
  refine ⟨recalls.dictionary, ?_, ?_⟩
  · rw [Array.size_append]
    exact congrArg (· + chunk.size) recalls.targetBytes
  · intro position target present
    simp only [Encoder.accepted] at present
    split at present
    · cases present
      rw [recalls.targetBytes, Array.size_append, Array.extract_append_right, Array.extract_size]
      exact ⟨Nat.le_refl _, rfl⟩
    · cases present

/-- The session behind a chunk that has been refused. -/
def refused (e : Encoder) (writer : Writer) : Encoder :=
  { e with writer := some writer, previous := none }

theorem Recalls.refused (recalls : e.Recalls dictionary history) (writer : Writer) :
    (e.refused writer).Recalls dictionary history :=
  ⟨recalls.dictionary, recalls.targetBytes, fun _ _ h => by cases h⟩

/-- The session is between two chunks, and a decoder has made `history` of what was handed out. -/
structure Stands (e : Encoder) (dictionary history : Array UInt8) (w : DeltaWriter) : Prop where
  writer : e.writer = some (.delta w)
  between : w.Between
  recalls : e.Recalls dictionary history

theorem encodeChunk_window {writer : Writer} (present : e.writer = some writer)
    (nonempty : chunk ≠ #[]) :
    e.encodeChunk chunk =
      match writeWindow writer e.options e.nextSource.1 e.nextSource.2 chunk with
      | (.error error, writer) => (.error error, e.refused writer)
      | (.ok bytes, writer) => (.ok bytes, e.accepted writer chunk) := by
  have full : chunk.isEmpty = false := by
    rw [Array.isEmpty_eq_false_iff]
    exact nonempty
  simp only [encodeChunk, present, full, Bool.false_eq_true, if_false]
  rfl

theorem encodeChunk_empty {writer : Writer} (present : e.writer = some writer) :
    e.encodeChunk #[] = (.ok [], e) := by
  simp only [encodeChunk, present]
  rfl

/-- The edits for a chunk. -/
def found (e : Encoder) (chunk : Array UInt8) : List Edit :=
  Match.findEdits e.nextSource.1 e.options.targetMatches chunk

/-- A chunk is accepted or refused as the edits are that have been found for it. They make the chunk
from what the window refers to. -/
theorem encodeChunk_target (writer : e.writer = some (.delta w))
    (recalls : e.Recalls dictionary history) (nonempty : chunk ≠ #[]) :
    ∃ opening : Opening, opening.Within dictionary history ∧
      (dictionary.size + history.size ≤ maxField → opening.Addressable) ∧
      (opening.source dictionary history).size ≤ dictionary.size + history.size ∧
      (chunk.size ≤ DeltaWriter.maxTarget →
        Edit.Covers (opening.source dictionary history) chunk 0 (e.found chunk) chunk.size) ∧
      e.encodeChunk chunk =
        match w.writeTarget opening (e.found chunk) e.options.checksum chunk with
        | (.error error, w') => (.error error, e.refused (.delta w'))
        | (.ok bytes, w') => (.ok bytes, e.accepted (.delta w') chunk) := by
  obtain ⟨opening, opens, fields, within, source, size⟩ := recalls.nextSource w
  rw [source] at size
  refine ⟨opening, within, fields, size, ?_, ?_⟩
  · intro small
    rw [← source]
    exact Match.covers_findEdits _ _ (Nat.le_trans small (by decide))
  · rw [encodeChunk_window writer nonempty,
      @writeWindow_delta w e.nextSource.1 e.nextSource.2 opening e.options chunk opens, found]
    rcases w.writeTarget opening (Match.findEdits e.nextSource.1 e.options.targetMatches chunk)
      e.options.checksum chunk with ⟨error | bytes, w'⟩
    · rfl
    · rfl

theorem encodeChunk_accepted (stands : e.Stands dictionary history w)
    (field : dictionary.size + history.size + chunk.size ≤ maxField)
    (small : chunk.size ≤ DeltaWriter.maxTarget) (nonempty : chunk ≠ #[]) :
    ∃ bytes e' w', e.encodeChunk chunk = (.ok bytes, e') ∧ e'.options = e.options ∧
      e'.Stands dictionary (history ++ chunk) w' ∧ bytes ≠ [] ∧ w.SameFormat w' ∧
      ∀ d : WindowDecoder, d.Follows w e.options.checksum →
        d.Reads dictionary history bytes chunk := by
  obtain ⟨opening, within, fields, size, covers, encoded⟩ :=
    encodeChunk_target stands.writer stands.recalls nonempty
  obtain ⟨bytes, w', written, bytes_ne, between, format, reads⟩ :=
    DeltaWriter.accepts_target stands.between (fields (by omega)) within (covers small) (by omega)
      small nonempty e.options.checksum
  rw [written] at encoded
  exact ⟨bytes, e.accepted (.delta w') chunk, w', encoded, rfl,
    ⟨rfl, between, stands.recalls.accepted _ chunk⟩, bytes_ne, format, reads⟩

theorem checkLength_default (small : history.size + chunk.size ≤ DeltaWriter.maxTarget) :
    DecoderConfig.checkLength {} history.size chunk.size = .ok () := by
  simp only [DeltaWriter.maxTarget] at small
  exact DecoderConfig.checkLength_accepts (by simp only; omega) (by simp only; omega)
    (fun _ h => by cases h)

theorem size_le_foldl_append (chunks : List (Array UInt8)) (history : Array UInt8) :
    history.size ≤ (chunks.foldl (· ++ ·) history).size := by
  induction chunks generalizing history with
  | nil => exact Nat.le_refl _
  | cons chunk rest ih =>
    refine Nat.le_trans ?_ (ih (history ++ chunk))
    rw [Array.size_append]
    exact Nat.le_add_right _ _

/-- All chunks are encoded, and a decoder that follows the writer makes the target of them. -/
theorem encodeChunks_accepted {chunks : List (Array UInt8)}
    (stands : e.Stands dictionary history w)
    (field : dictionary.size + (chunks.foldl (· ++ ·) history).size ≤ maxField)
    (small : (chunks.foldl (· ++ ·) history).size ≤ DeltaWriter.maxTarget) :
    ∃ bytes e' w', e.encodeChunks chunks = (.ok bytes, e') ∧
      e'.Stands dictionary (chunks.foldl (· ++ ·) history) w' ∧
      ∀ (d : WindowDecoder) (offset : Nat), d.Follows w e.options.checksum → ∃ run : WindowRun,
        run.decoder.phase = .header ∧
          WindowRun.run dictionary {} none ⟨offset, bytes⟩ ⟨history, none⟩ ⟨d, history, history.size⟩ =
            (.ok (run, ⟨offset + bytes.length, []⟩), ⟨chunks.foldl (· ++ ·) history, none⟩) := by
  -- By the chunks that are left, with what has been made of the others as the history.
  induction chunks generalizing e w history with
  | nil =>
    refine ⟨[], e, w, rfl, stands, ?_⟩
    intro d offset follows
    exact ⟨⟨d, history, history.size⟩, follows.phase, WindowRun.run_stops (.inr rfl)⟩
  | cons chunk rest ih =>
    rw [List.foldl_cons] at field small ⊢
    by_cases empty : chunk = #[]
    · subst empty
      rw [Array.append_empty] at field small ⊢
      obtain ⟨bytes, e', w', encoded, stands', runs⟩ := ih stands field small
      refine ⟨bytes, e', w', ?_, stands', runs⟩
      simp only [encodeChunks, encodeChunk_empty stands.writer, encoded, List.nil_append]
    · have reached := size_le_foldl_append rest (history ++ chunk)
      rw [Array.size_append] at reached
      obtain ⟨bytes, e₁, w₁, encoded, options, stands₁, bytes_ne, format, reads⟩ :=
        encodeChunk_accepted stands (by omega) (by omega) empty
      obtain ⟨more, e', w', encoded', stands', runs⟩ := ih stands₁ field small
      refine ⟨bytes ++ more, e', w', ?_, stands', ?_⟩
      · simp only [encodeChunks, encoded, encoded']
      · intro d offset follows
        obtain ⟨d', same, read⟩ := @WindowRun.run_reads dictionary history chunk {} none
          ⟨history, none⟩ d bytes (reads d follows) bytes_ne (fun h => by cases h) rfl
          (checkLength_default (by omega)) rfl offset more
        obtain ⟨run, phase, ran⟩ := runs d' (offset + bytes.length)
          (by rw [options]; exact follows.next same format)
        refine ⟨run, phase, ?_⟩
        rw [read, ran, List.length_append, Nat.add_assoc]

end Encoder

/-! ## Sessions -/

variable {dictionary : Array UInt8} {options : EncodeOptions}

theorem EncodeOptions.version_eq (options : EncodeOptions) :
    options.interleaved = true ∨ options.checksum = true → options.version = .sdch := by
  intro needs
  rw [version, if_pos (Bool.or_eq_true_iff.2 needs)]

theorem EncodeOptions.writer_plain (binary : options.json = false)
    (plain : options.codeTable = none) :
    options.writer = .ok (.delta (.standard options.interleaved)) := by
  simp only [writer, binary, plain, Bool.false_eq_true, if_false]

theorem EncodeOptions.writer_own {own : OwnCodeTable} {w : DeltaWriter}
    (binary : options.json = false) (custom : options.codeTable = some own)
    (made : DeltaWriter.withTable options.interleaved own.near own.same own.table = .ok w) :
    options.writer = .ok (.delta w) := by
  simp only [writer, binary, custom, made, Bool.false_eq_true, if_false]
  rfl

/-- The writer's file header leads decoders to its windows. -/
theorem EncodeOptions.writer_accepted (binary : options.json = false)
    (accepted : ∀ own, options.codeTable = some own →
      ∃ w, DeltaWriter.withTable options.interleaved own.near own.same own.table = .ok w) :
    ∃ w header, options.writer = .ok (.delta w) ∧ w.fileHeader options.version = .ok header ∧
      w.Between ∧ ∃ d : WindowDecoder, d.Follows w options.checksum ∧
        ∀ (dictionary : Array UInt8) (config : DecoderConfig) (rest : List UInt8) (sink : Sink),
          (Session.start dictionary config).run ⟨0, header ++ rest⟩ sink =
            (Session.start dictionary config).runWindows (.ofDecoder d) ⟨0 + header.length, rest⟩
              sink := by
  cases custom : options.codeTable with
  | none =>
    refine ⟨.standard options.interleaved, FileHeader.toBytes ⟨options.version, none⟩,
      writer_plain binary custom, rfl, .standard _, .ofVersion options.version,
      ⟨rfl, rfl, rfl, options.version_eq⟩, ?_⟩
    intro dictionary config rest sink
    exact Session.run_standardHeader options.version 0 rest
  | some own =>
    obtain ⟨w, made⟩ := accepted own custom
    have chosen := writer_own binary custom made
    obtain ⟨sizes, valid, rfl⟩ := DeltaWriter.withTable_ok made
    obtain ⟨window, delta, -, -⟩ := own.table.toDelta_accepted
    refine ⟨_, _, chosen, DeltaWriter.fileHeader_make delta, .withTable made,
      (WindowDecoder.ofVersion options.version).withTable own.table sizes,
      ⟨rfl, rfl, rfl, options.version_eq⟩, ?_⟩
    intro dictionary config rest sink
    exact Session.run_tableHeader delta valid options.version 0 rest rfl

namespace Encoder

variable {e : Encoder}

/-- The session that begins with this writer. -/
def startedWith (e : Encoder) (writer : Writer) : Encoder :=
  { e with writer := some writer, previous := none, targetBytes := 0, windows := 0 }

theorem recalls_startedWith (e : Encoder) (writer : Writer) :
    (e.startedWith writer).Recalls e.index.dictionary #[] :=
  ⟨rfl, rfl, fun _ _ h => by cases h⟩

theorem start_ok {w : DeltaWriter} {header : List UInt8} (idle : e.writer = none)
    (made : e.options.writer = .ok (.delta w))
    (written : w.fileHeader e.options.version = .ok header) :
    e.start = (.ok header, e.startedWith (.delta w)) := by
  have begun : (do
      let writer ← e.options.writer
      let header ← writer.fileHeader e.options.version
      pure (writer, header)) = Except.ok (Writer.delta w, header) := by
    rw [made]
    change (do let header ← w.fileHeader e.options.version; pure (Writer.delta w, header)) = _
    rw [written]
    rfl
  simp only [start, idle, begun, Option.isSome_none, Bool.false_eq_true, if_false]
  rfl

end Encoder

theorem decodeMemory_ok {delta : List UInt8} {session : Session} {offset : Nat} {sink : Sink}
    (ran : (Session.start dictionary {}).run ⟨0, delta⟩ {} = (.ok (session, ⟨offset, []⟩), sink))
    (complete : session.isComplete = true) :
    decodeMemory dictionary delta = .ok sink.written := by
  simp only [decodeMemory, StreamDecoder.start, StreamDecoder.idle, StreamDecoder.isDecoding,
    StreamDecoder.decodeChunk, Option.isSome_none, Bool.false_eq_true, if_false, List.nil_append, ran,
    StreamDecoder.finish, complete]
  rfl

/-- Encoding in chunks succeeds and decoding makes the target of them again, whatever the options
are, as long as no address or length is too large for its field and the target is not larger than
decoders accept by default. -/
theorem decodeMemory_encodeAll (dictionary : Array UInt8) (chunks : List (Array UInt8))
    (options : EncodeOptions) (binary : options.json = false)
    (accepted : ∀ own, options.codeTable = some own →
      ∃ w, DeltaWriter.withTable options.interleaved own.near own.same own.table = .ok w)
    (field : dictionary.size + (chunks.foldl (· ++ ·) #[]).size ≤ maxField)
    (small : (chunks.foldl (· ++ ·) #[]).size ≤ 64 * 1024 * 1024) :
    ∃ delta, (Encoder.ofDictionary dictionary options).encodeAll chunks = .ok delta ∧
      decodeMemory dictionary delta = .ok (chunks.foldl (· ++ ·) #[]) := by
  obtain ⟨w, header, made, written, between, d, follows, led⟩ :=
    options.writer_accepted binary accepted
  have same := DictionaryIndex.dictionary_ofDictionary dictionary
  have recalls := (Encoder.ofDictionary dictionary options).recalls_startedWith (.delta w)
  simp only [Encoder.ofDictionary, same] at recalls
  have stands : Encoder.Stands ((Encoder.ofDictionary dictionary options).startedWith (.delta w))
      dictionary #[] w := ⟨rfl, between, recalls⟩
  obtain ⟨windows, e, w', encoded, stands', runs⟩ :=
    Encoder.encodeChunks_accepted stands field small
  obtain ⟨run, phase, ran⟩ := runs d (0 + header.length) follows
  have finished : e.finish.1 = .ok [] := by
    simp only [Encoder.finish, stands'.writer, Writer.finish, DeltaWriter.finish, stands'.between.idle]
    rfl
  refine ⟨header ++ windows, ?_, ?_⟩
  · have started := @Encoder.start_ok (Encoder.ofDictionary dictionary options) w header rfl made
      written
    simp only [Encoder.encodeAll, started, encoded, finished]
    change Except.ok (header ++ (windows ++ [])) = _
    rw [List.append_nil]
  · have whole : (Session.start dictionary {}).run ⟨0, header ++ windows⟩ {} =
        (.ok (⟨dictionary, {}, .windows run⟩, ⟨0 + header.length + windows.length, []⟩),
          ⟨chunks.foldl (· ++ ·) #[], none⟩) := by
      rw [led]
      simp only [Session.runWindows, Session.start, WindowRun.ofDecoder]
      rw [Array.size_empty] at ran
      rw [ran]
    apply decodeMemory_ok whole
    simp only [Session.isComplete, WindowDecoder.inWindow, phase]
    rfl

theorem decodeMemory_encodeAll_own_table :
    let options : EncodeOptions :=
      { interleaved := true, checksum := true, previousTarget := true,
        codeTable := some ⟨4, 3, .standard⟩ }
    (∃ w, DeltaWriter.withTable true 4 3 .standard = .ok w) ∧
      ∃ delta, (Encoder.ofDictionary #[1, 2, 3, 4] options).encodeAll
          [#[1, 2, 3, 4, 9], #[], #[3, 4, 9, 7]] = .ok delta ∧
        decodeMemory #[1, 2, 3, 4] delta = .ok #[1, 2, 3, 4, 9, 3, 4, 9, 7] := by
  intro options
  have accepted : DeltaWriter.withTable true 4 3 .standard =
      .ok (.make true true .standard .standard) :=
    @DeltaWriter.withTable_accepted true .standard .standard CodeTable.validate_standard
  refine ⟨⟨_, accepted⟩, ?_⟩
  exact decodeMemory_encodeAll #[1, 2, 3, 4] [#[1, 2, 3, 4, 9], #[], #[3, 4, 9, 7]] options rfl
    (fun own custom => by cases custom; exact ⟨_, accepted⟩) (by decide) (by decide)

end DeltaCoding
