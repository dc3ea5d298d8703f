import DeltaCoding.Proofs.CodeTable.RoundTrip
import DeltaCoding.Proofs.Inspect.Window

namespace DeltaCoding

/-! ## Runs of windows -/

namespace WindowSummary

variable {opcodes : Opcodes} {version : Version} {stopAt : Option Nat}
  {decoded offset length : Nat} {interleaved : Bool} {bytes rest : List UInt8}
  {windows : List WindowSummary} {c behind : Cursor}

theorem describeAll_ends (ends : c.isEmpty = true ∨ stopAt.any (· ≤ decoded) = true) :
    describeAll version opcodes stopAt decoded c = .ok ([], c) := by
  rw [describeAll, if_pos (Bool.or_eq_true_iff.2 ends)]

theorem describeAll_window
    (describes : opcodes.Describes version decoded bytes interleaved length)
    (nonempty : bytes ≠ []) (goes : stopAt.any (· ≤ decoded) = false)
    (others : describeAll version opcodes stopAt (decoded + length)
      ⟨offset + bytes.length, rest⟩ = .ok (windows, behind)) :
    ∃ window, describeAll version opcodes stopAt decoded ⟨offset, bytes ++ rest⟩ =
        .ok (window :: windows, behind) ∧
      window.outline = (offset, length, interleaved, length) := by
  obtain ⟨window, described, outline⟩ := describes offset rest
  have targetLength : window.header.targetLength = length := congrArg (·.2.1) outline
  have more : ¬ (Cursor.isEmpty ⟨offset, bytes ++ rest⟩ || stopAt.any (· ≤ decoded)) = true := by
    rw [goes, Bool.or_false, Cursor.isEmpty, List.isEmpty_iff, List.append_eq_nil_iff]
    exact fun empty => nonempty empty.1
  refine ⟨window, ?_, outline⟩
  rw [describeAll, if_neg more]
  split
  · next failed =>
    rw [described] at failed
    cases failed
  · next found =>
    rw [described] at found
    cases found
    rw [targetLength, others]

end WindowSummary

/-! ## File headers -/

namespace DeltaSummary

theorem parseFileHeader_toBytes (header : FileHeader) (offset : Nat) (rest : List UInt8) :
    parseFileHeader ⟨offset, header.toBytes ++ rest⟩ =
      .ok (header, ⟨offset + header.toBytes.length, rest⟩) := by
  simp only [parseFileHeader,
    FileHeader.reads_toBytes header _ _ (Cursor.takes_append offset _ rest)]

theorem describes_toDelta (table : CodeTable) : ∃ window,
    table.toDelta = .ok (FileHeader.toBytes { version := .standard, cacheSizes := none } ++ window) ∧
      window ≠ [] ∧
      standardOpcodes.Describes .standard 0 window false CodeTable.storedSize ∧
      ∀ d : WindowDecoder, d.Follows (.standard false) false →
        d.Reads CodeTable.standardBytes #[] window table.toBytes := by
  obtain ⟨window, w', written, wrote, nonempty, reads⟩ := table.toDelta_written
  have size := table.size_toBytes
  have covers := @TableDelta.covers_edits CodeTable.standardBytes table.toBytes
    (by rw [size, CodeTable.size_standardBytes])
  have small : table.toBytes.size ≤ DeltaWriter.maxTarget := by
    rw [size]
    decide
  have addressable : CodeTable.standardBytes.size < UInt64.size := by
    rw [CodeTable.size_standardBytes]
    decide
  have describes := @DeltaWriter.describes_target (.standard false) _ _ _ _ CodeTable.standardBytes #[]
    _ _ .standard (DeltaWriter.Between.standard false).usable (Nat.le_refl _) covers small
    table.toBytes_ne wrote addressable (by rintro (interleaved | checked) <;> contradiction)
  rw [size] at describes
  exact ⟨window, written, nonempty, describes, reads⟩

/-- The delta of a table is walked as one window, and the table is decoded from it. -/
theorem readTable_toDelta {table : CodeTable} {delta : List UInt8} {sizes : CacheSizes}
    (made : table.toDelta = .ok delta) (valid : table.validate sizes.maxMode = .ok ())
    (offset : Nat) (rest : List UInt8) : readTable sizes ⟨offset, delta ++ rest⟩ =
      .ok (⟨table, sizes.firstSameMode⟩, delta.length, ⟨offset + delta.length, rest⟩) := by
  obtain ⟨window, written, nonempty, describes, reads⟩ := describes_toDelta table
  have decoded := decodeMemory_window reads nonempty (by rw [table.size_toBytes]; decide)
  cases made.symm.trans written
  have header := parseFileHeader_toBytes ⟨.standard, none⟩ offset (window ++ rest)
  generalize FileHeader.toBytes ⟨.standard, none⟩ = front at header decoded
  have goes : (some CodeTable.storedSize).any (· ≤ 0) = false := by decide
  have ends : WindowSummary.describeAll .standard standardOpcodes (some CodeTable.storedSize)
      (0 + CodeTable.storedSize) ⟨offset + front.length + window.length, rest⟩ = _ :=
    WindowSummary.describeAll_ends (.inr (by decide))
  obtain ⟨summary, walked, -⟩ := WindowSummary.describeAll_window describes nonempty goes ends
  have length : offset + front.length + window.length - offset = (front ++ window).length := by
    rw [List.length_append]
    omega
  have resolvable := (CodeTable.valid_of_validate valid).resolvable
  have taken : (front ++ (window ++ rest)).take (front ++ window).length = front ++ window := by
    rw [← List.append_assoc, List.take_left]
  simp only [readTable, List.append_assoc, header, walked, bind, Except.bind, length, taken, decoded,
    Except.mapError, CodeTable.ofBytes_toBytes, valid, resolvable, if_true]
  rw [List.length_append, Nat.add_assoc]
  rfl

variable {version : Version} {rest : List UInt8} {windows : List WindowSummary} {behind : Cursor}

theorem ofDelta_plain
    (walked : WindowSummary.describeAll version standardOpcodes none 0
      ⟨0 + (FileHeader.toBytes ⟨version, none⟩).length, rest⟩ = .ok (windows, behind)) :
    ofDelta (FileHeader.toBytes ⟨version, none⟩ ++ rest) = .ok ⟨⟨version, none⟩, none, windows⟩ := by
  simp only [ofDelta, Cursor.ofBytes, parseFileHeader_toBytes, bind, Except.bind, walked]
  rfl

theorem ofDelta_table {table : CodeTable} {delta front : List UInt8} {sizes : CacheSizes}
    (made : table.toDelta = .ok delta) (valid : table.validate sizes.maxMode = .ok ())
    (header : front = FileHeader.toBytes ⟨version, some (.ofNat sizes.near, .ofNat sizes.same)⟩)
    (walked : WindowSummary.describeAll version ⟨table, sizes.firstSameMode⟩ none 0
      ⟨0 + (front ++ delta).length, rest⟩ = .ok (windows, behind)) :
    ofDelta (front ++ delta ++ rest) =
      .ok ⟨⟨version, some (.ofNat sizes.near, .ofNat sizes.same)⟩, some delta.length, windows⟩ := by
  subst header
  rw [List.length_append, ← Nat.add_assoc] at walked
  simp only [ofDelta, Cursor.ofBytes, List.append_assoc, parseFileHeader_toBytes, bind, Except.bind,
    Session.check_toNat, Except.mapError, readTable_toDelta made valid, walked]
  rfl

end DeltaSummary

theorem DeltaWriter.sizes_withTable {w : DeltaWriter} {interleaved : Bool} {near same : Nat}
    {table : CodeTable} (made : withTable interleaved near same table = .ok w) :
    w.cache.sizes.near = near ∧ w.cache.sizes.same = same := by
  rw [withTable, CacheSizes.check] at made
  split at made
  · cases made
  · next checked =>
    split at checked
    · cases checked
      split at made
      · cases made
      · cases made
        exact ⟨rfl, rfl⟩
    · cases checked

namespace EncodeOptions

variable {options : EncodeOptions}

/-- The length is that of the table's delta in the file header, if the options have a table of their
own. -/
def Embeds (options : EncodeOptions) (header : List UInt8) (tableDelta : Option Nat) : Prop :=
  match options.codeTable with
  | none => tableDelta = none
  | some own => ∃ delta, own.table.toDelta = .ok delta ∧
      header = FileHeader.toBytes ⟨options.version, some (.ofNat own.near, .ofNat own.same)⟩ ++ delta ∧
      tableDelta = some delta.length

theorem writer_described (binary : options.json = false)
    (accepted : ∀ own, options.codeTable = some own →
      ∃ w, DeltaWriter.withTable options.interleaved own.near own.same own.table = .ok w) :
    ∃ w header, options.writer = .ok (.delta w) ∧ w.fileHeader options.version = .ok header ∧
      w.Between ∧ w.interleaved = options.interleaved ∧
      ∀ (rest : List UInt8) (windows : List WindowSummary) (behind : Cursor),
        WindowSummary.describeAll options.version w.opcodes none 0 ⟨0 + header.length, rest⟩ =
            .ok (windows, behind) →
          ∃ summary, DeltaSummary.ofDelta (header ++ rest) = .ok summary ∧
            summary.windows = windows ∧ options.Embeds header summary.tableDelta := by
  cases custom : options.codeTable with
  | none =>
    refine ⟨.standard options.interleaved, FileHeader.toBytes ⟨options.version, none⟩,
      writer_plain binary custom, rfl, .standard _, rfl, ?_⟩
    intro rest windows behind walked
    refine ⟨_, DeltaSummary.ofDelta_plain walked, rfl, ?_⟩
    simp only [Embeds, custom]
  | some own =>
    obtain ⟨w, made⟩ := accepted own custom
    have chosen := writer_own binary custom made
    have between := DeltaWriter.Between.withTable made
    obtain ⟨near, same⟩ := DeltaWriter.sizes_withTable made
    obtain ⟨sizes, valid, rfl⟩ := DeltaWriter.withTable_ok made
    obtain ⟨window, delta, -, -⟩ := own.table.toDelta_accepted
    refine ⟨_, _, chosen, DeltaWriter.fileHeader_make delta, between, rfl, ?_⟩
    intro rest windows behind walked
    refine ⟨_, DeltaSummary.ofDelta_table delta valid rfl walked, rfl, ?_⟩
    simp only [Embeds, custom, ← near, ← same]
    exact ⟨_, delta, rfl, rfl⟩

end EncodeOptions

/-! ## Chunks -/

namespace Encoder

variable {e e' : Encoder} {w : DeltaWriter} {dictionary history chunk : Array UInt8}
  {version : Version}

/-- Where the windows of the chunks begin in the delta, of which `offset` bytes have been handed out, each
with its chunk. -/
def windowPlaces (e : Encoder) (offset : Nat) : List (Array UInt8) → List (Nat × Array UInt8)
  | [] => []
  | chunk :: rest =>
    match e.encodeChunk chunk with
    | (.error _, _) => []
    | (.ok bytes, e) =>
      let later := e.windowPlaces (offset + bytes.length) rest
      if chunk.isEmpty then later else (offset, chunk) :: later

theorem encodeChunks_cons {rest : List (Array UInt8)} {bytes : List UInt8}
    (encoded : e.encodeChunks (chunk :: rest) = (.ok bytes, e')) :
    ∃ window e₁ others, e.encodeChunk chunk = (.ok window, e₁) ∧
      e₁.encodeChunks rest = (.ok others, e') ∧ bytes = window ++ others := by
  rcases first : e.encodeChunk chunk with ⟨_ | window, e₁⟩
  · simp only [encodeChunks, first] at encoded
    cases encoded
  · rcases later : e₁.encodeChunks rest with ⟨_ | others, e₂⟩
    · simp only [encodeChunks, first, later] at encoded
      cases encoded
    · simp only [encodeChunks, first, later] at encoded
      cases encoded
      exact ⟨window, e₁, others, rfl, later, rfl⟩

theorem chunks_windowPlaces {chunks : List (Array UInt8)} {bytes : List UInt8}
    (encoded : e.encodeChunks chunks = (.ok bytes, e')) (offset : Nat) :
    (e.windowPlaces offset chunks).map Prod.snd = chunks.filter (!·.isEmpty) := by
  induction chunks generalizing e offset bytes with
  | nil => rfl
  | cons chunk rest ih =>
    obtain ⟨window, e₁, others, first, encoded, -⟩ := encodeChunks_cons encoded
    have later := ih encoded (offset + window.length)
    simp only [windowPlaces, first, List.filter_cons]
    cases chunk.isEmpty with
    | true => exact later
    | false => exact congrArg (chunk :: ·) later

theorem describes_chunk (stands : e.Stands dictionary history w) (small : chunk.size ≤ DeltaWriter.maxTarget)
    (nonempty : chunk ≠ #[]) (addressable : dictionary.size < UInt64.size)
    (extensions : w.interleaved = true ∨ e.options.checksum = true → version = .sdch)
    {bytes : List UInt8} (encoded : e.encodeChunk chunk = (.ok bytes, e')) :
    w.opcodes.Describes version history.size bytes w.interleaved chunk.size := by
  obtain ⟨opening, within, -, -, covers, same⟩ :=
    encodeChunk_target stands.writer stands.recalls nonempty
  rw [same] at encoded
  rcases wrote : w.writeTarget opening (e.found chunk) e.options.checksum chunk with
    ⟨_ | written, w'⟩
  · rw [wrote] at encoded
    cases encoded
  · rw [wrote] at encoded
    cases encoded
    exact DeltaWriter.describes_target stands.between.usable within (covers small) small nonempty
      wrote addressable extensions

/-- The windows of all chunks are described, each in its place. -/
theorem describes_chunks {chunks : List (Array UInt8)} (stands : e.Stands dictionary history w)
    (field : dictionary.size + (chunks.foldl (· ++ ·) history).size ≤ maxField)
    (small : (chunks.foldl (· ++ ·) history).size ≤ DeltaWriter.maxTarget)
    (extensions : w.interleaved = true ∨ e.options.checksum = true → version = .sdch)
    {bytes : List UInt8} (encoded : e.encodeChunks chunks = (.ok bytes, e')) (offset : Nat) :
    ∃ windows, WindowSummary.describeAll version w.opcodes none history.size ⟨offset, bytes⟩ =
        .ok (windows, ⟨offset + bytes.length, []⟩) ∧
      windows.map WindowSummary.outline = (e.windowPlaces offset chunks).map
        fun (offset, chunk) => (offset, chunk.size, w.interleaved, chunk.size) := by
  -- By the chunks that are left, with what has been made of the others as the history.
  induction chunks generalizing e w history offset bytes with
  | nil =>
    cases encoded
    exact ⟨[], WindowSummary.describeAll_ends (.inl rfl), rfl⟩
  | cons chunk rest ih =>
    rw [List.foldl_cons] at field small
    obtain ⟨window, e₁, others, first, later, rfl⟩ := encodeChunks_cons encoded
    by_cases empty : chunk = #[]
    · subst empty
      rw [Array.append_empty] at field small
      cases first.symm.trans (encodeChunk_empty stands.writer)
      obtain ⟨windows, walked, outlines⟩ := ih stands field small extensions later offset
      refine ⟨windows, walked, outlines.trans ?_⟩
      simp only [windowPlaces, first]
      rfl
    · have reached := size_le_foldl_append rest (history ++ chunk)
      rw [Array.size_append] at reached
      have describes := describes_chunk stands (by omega) empty
        (Nat.lt_of_le_of_lt (Nat.le_trans (Nat.le_add_right _ _) field) (by decide)) extensions first
      obtain ⟨_, _, w₁, accepted, options, stands₁, nonempty, format, -⟩ :=
        encodeChunk_accepted stands (by omega) (by omega) empty
      cases first.symm.trans accepted
      obtain ⟨windows, walked, outlines⟩ := ih stands₁ field small
        (by rw [format.interleaved, options]; exact extensions) later (offset + window.length)
      have opcodes : w₁.opcodes = w.opcodes := by
        rw [DeltaWriter.opcodes, DeltaWriter.opcodes, format.table, format.sizes]
      rw [Array.size_append, opcodes] at walked
      rw [format.interleaved] at outlines
      obtain ⟨summary, whole, outline⟩ :=
        WindowSummary.describeAll_window describes nonempty rfl walked
      refine ⟨summary :: windows, ?_, ?_⟩
      · rw [whole, List.length_append, Nat.add_assoc]
      · have full : chunk.isEmpty = false := by
          rw [Array.isEmpty_eq_false_iff]
          exact empty
        simp only [windowPlaces, first, full, Bool.false_eq_true, if_false, List.map_cons, outline,
          outlines]

end Encoder

/-- Encoding in chunks succeeds, and the delta is described as it is: as one window for each chunk that
is not empty, in order, each where it begins in the delta, as long as its chunk, in the layout asked for
and with instructions that make as many bytes; and with a code table if there is one, whose delta is as
long as it is. -/
theorem DeltaSummary.ofDelta_encodeAll (dictionary : Array UInt8) (chunks : List (Array UInt8))
    (options : EncodeOptions) (binary : options.json = false)
    (accepted : ∀ own, options.codeTable = some own →
      ∃ w, DeltaWriter.withTable options.interleaved own.near own.same own.table = .ok w)
    (field : dictionary.size + (chunks.foldl (· ++ ·) #[]).size ≤ maxField)
    (small : (chunks.foldl (· ++ ·) #[]).size ≤ 64 * 1024 * 1024) :
    ∃ header started delta summary,
      (Encoder.ofDictionary dictionary options).start = (.ok header, started) ∧
      (Encoder.ofDictionary dictionary options).encodeAll chunks = .ok delta ∧
      ofDelta delta = .ok summary ∧
      summary.windows.map WindowSummary.outline =
        (started.windowPlaces header.length chunks).map
          (fun (offset, chunk) => (offset, chunk.size, options.interleaved, chunk.size)) ∧
      (started.windowPlaces header.length chunks).map Prod.snd = chunks.filter (!·.isEmpty) ∧
      options.Embeds header summary.tableDelta := by
  obtain ⟨w, header, made, written, between, interleaved, led⟩ :=
    options.writer_described binary accepted
  have started := @Encoder.start_ok (Encoder.ofDictionary dictionary options) w header rfl made written
  have recalls := (Encoder.ofDictionary dictionary options).recalls_startedWith (.delta w)
  simp only [Encoder.ofDictionary, DictionaryIndex.dictionary_ofDictionary dictionary] at recalls
  have stands : Encoder.Stands ((Encoder.ofDictionary dictionary options).startedWith (.delta w))
      dictionary #[] w := ⟨rfl, between, recalls⟩
  obtain ⟨windows, e, w', encoded, stands', -⟩ := Encoder.encodeChunks_accepted stands field small
  have finished : e.finish.1 = .ok [] := by
    simp only [Encoder.finish, stands'.writer, Writer.finish, DeltaWriter.finish, stands'.between.idle]
    rfl
  obtain ⟨summaries, walked, outlines⟩ := @Encoder.describes_chunks _ e w dictionary #[]
    options.version chunks stands field small
    (by rw [interleaved]; exact options.version_eq) windows encoded (0 + header.length)
  obtain ⟨summary, described, rfl, embeds⟩ := led windows summaries _ walked
  rw [interleaved, Nat.zero_add] at outlines
  refine ⟨header, _, header ++ windows, summary, started, ?_, described, outlines,
    Encoder.chunks_windowPlaces encoded _, embeds⟩
  simp only [Encoder.encodeAll, started, encoded, finished]
  change Except.ok (header ++ (windows ++ [])) = _
  rw [List.append_nil]

/-- Two windows for three chunks, with a code table in front. -/
theorem DeltaSummary.ofDelta_encodeAll_own_table :
    let options : EncodeOptions :=
      { interleaved := true, checksum := true, previousTarget := true,
        codeTable := some ⟨4, 3, .standard⟩ }
    (∃ w, DeltaWriter.withTable true 4 3 .standard = .ok w) ∧
      ∃ delta summary, (Encoder.ofDictionary #[1, 2, 3, 4] options).encodeAll
          [#[1, 2, 3, 4, 9], #[], #[3, 4, 9, 7]] = .ok delta ∧
        ofDelta delta = .ok summary ∧
        summary.windows.map (·.outline.2) = [(5, true, 5), (4, true, 4)] ∧
        ∃ table, CodeTable.standard.toDelta = .ok table ∧ summary.tableDelta = some table.length := by
  intro options
  have accepted : DeltaWriter.withTable true 4 3 .standard =
      .ok (.make true true .standard .standard) :=
    @DeltaWriter.withTable_accepted true .standard .standard CodeTable.validate_standard
  refine ⟨⟨_, accepted⟩, ?_⟩
  obtain ⟨header, started, delta, summary, -, encoded, described, outlines, places, embeds⟩ :=
    ofDelta_encodeAll #[1, 2, 3, 4] [#[1, 2, 3, 4, 9], #[], #[3, 4, 9, 7]] options rfl
      (fun own custom => by cases custom; exact ⟨_, accepted⟩) (by decide) (by decide)
  obtain ⟨table, made, -, length⟩ := embeds
  refine ⟨delta, summary, encoded, described, ?_, table, made, length⟩
  have sizes := congrArg (List.map fun chunk : Array UInt8 => (chunk.size, true, chunk.size)) places
  have tails := congrArg (List.map Prod.snd) outlines
  rw [List.map_map] at sizes tails
  rw [List.map_map] at tails
  exact tails.trans sizes

end DeltaCoding
