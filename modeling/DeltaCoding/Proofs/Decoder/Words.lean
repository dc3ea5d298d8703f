import DeltaCoding.Proofs.Decoder.Limits
import DeltaCoding.Proofs.Decoder.RoundTrip
import DeltaCoding.Proofs.Header.Words

/-!
# Decoding in words

A decoder counts in words. `WindowCall.InWords` says that all sums of a call are words, and
`StreamDecoder.feed_answers` when they are. Not all of them always are: `StreamDecoder.feed_overflows`
has a sum of section lengths that is no word of 32 bits, and a size of the target that is none of 64.
-/

namespace DeltaCoding

def WindowDecoder.readHeaderIn (words : Nat) (d : WindowDecoder) (context : WindowContext)
    (c : Cursor) : Except ParseStop WindowHeader × HeaderState :=
  WindowHeader.parseIn words (context.headerContext d.version)
    (context.config.checkLength? context.decoded) (.ofCursor c)

/-- No sum of the call goes beyond a word. Sizes in memory are below `words`. -/
structure WindowCall.InWords (words : Nat) (call : WindowCall) : Prop where
  /-- Offsets in the delta. -/
  offset : call.cursor.offset + call.cursor.rest.length < UInt64.size
  /-- The lengths in a header. -/
  header : call.decoder.phase = .header →
    call.decoder.readHeaderIn words call.context call.cursor =
      call.decoder.readHeader call.context call.cursor
  /-- Addresses. -/
  here : ∀ body e c, call.decoder.entered? call.context call.cursor call.target = some (body, e, c) →
    body.segment.length + body.targetLength < UInt64.size
  /-- The target buffer, which grows up to where the call leaves it. -/
  buffer : call.progress.target.size < words
  /-- The target so far, if a window is complete. -/
  total : ∀ start stop, call.progress.outcome = .ok (.complete start stop) →
    Word.add? UInt64.size call.context.decoded (stop - start) =
      some (call.context.decoded + (stop - start))

theorem SourceSegment.Within.length_le {segment : SourceSegment} {dictionarySize decoded : Nat}
    {allowTarget : Bool} (within : segment.Within dictionarySize decoded allowTarget) :
    segment.length ≤ max dictionarySize decoded := by
  cases segment with
  | none => exact Nat.zero_le _
  | dictionary position length =>
    simp only [Within, SourceSegment.length] at within ⊢
    omega
  | target position length =>
    simp only [Within, SourceSegment.length] at within ⊢
    omega

namespace WindowCall

variable {call : WindowCall} {words : Nat}

/-- There is room for the sums of a call. -/
structure Room (words : Nat) (call : WindowCall) : Prop where
  sections : 3 * Varint.maxInt32 < words
  target : call.context.decoded + Varint.maxInt32 < min words UInt64.size
  segment : call.context.dictionary.size + Varint.maxInt32 < UInt64.size
  input : call.cursor.offset + call.cursor.rest.length + 3 * Varint.maxInt32 < UInt64.size

theorem buffer_le (ready : call.decoder.Ready call.context call.target) :
    call.progress.target.size ≤ call.context.decoded + Varint.maxInt32 := by
  cases about : call.decoder.entered? call.context call.cursor call.target with
  | none =>
    obtain ⟨outcome, decoded, -⟩ := WindowDecoder.decode_not_entered about
    have size := WindowDecoder.size_ready ready
    have declared : call.decoder.declaredLength ≤ Varint.maxInt32 := by
      simp only [WindowDecoder.declaredLength]
      cases phase : call.decoder.phase with
      | header => exact Nat.zero_le _
      | body body => exact (ready.body body phase).1.field
    rw [progress, decoded]
    exact Nat.le_trans size (Nat.add_le_add_left declared _)
  | some p =>
    obtain ⟨body, e, c⟩ := p
    obtain ⟨valid, within, -⟩ := WindowDecoder.sound_entered ready about
    have size := WindowDecoder.size_resume valid within c
    have field := within.field
    rw [progress, WindowDecoder.decode_entered about]
    omega

theorem inWords_of_ready (ready : call.decoder.Ready call.context call.target)
    (room : call.Room words) : call.InWords words := by
  obtain ⟨sections, target, segment, input⟩ := room
  refine ⟨by omega, fun phase => ?_, fun body e c about => ?_, ?_, fun start stop complete => ?_⟩
  · refine WindowHeader.parseIn_eq sections (fun n field => ?_) (HeaderState.started_ofCursor _) input
    exact DecoderConfig.checkLength?_eq (by omega)
  · obtain ⟨-, within, -⟩ := WindowDecoder.sound_entered ready about
    have length := within.within.length_le
    have field := within.field
    omega
  · have buffer := buffer_le ready
    omega
  · obtain ⟨-, -, -, -, -, -, field⟩ :=
      (WindowDecoder.sound_decode ready call.cursor).complete start stop complete
    exact Word.add?_eq_some (by omega)

end WindowCall

/-! ## Where the calls of a session are -/

namespace WindowRun

variable {dictionary : Array UInt8} {config : DecoderConfig} {stopAt : Option Nat}
  {start : WindowRun} {c : Cursor} {sink : Sink} {call : WindowCall}

theorem reaches_calls (h : Calls dictionary config stopAt start c sink call) :
    c.Reaches call.cursor := by
  induction h with
  | next goes => exact .refl _
  | later goes decoded complete written others ih =>
    subst decoded
    exact (WindowDecoder.reaches_decode _ _ _ _).trans ih

theorem decoded_calls (ready : start.Ready dictionary config)
    (h : Calls dictionary config stopAt start c sink call) :
    call.context.decoded ≤ config.maxTargetFile := by
  induction h with
  | next goes => exact ready.total
  | @later start c sink sink' call progress low high goes decoded complete written others ih =>
    subst decoded
    exact ih (ready_next (WindowDecoder.sound_decode ready.ready c) complete)

end WindowRun

theorem TableStage.reaches_calls {stage : TableStage} {c : Cursor} {call : WindowCall}
    (h : stage.Calls c call) : c.Reaches call.cursor := by
  cases h with
  | windows calls => exact WindowRun.reaches_calls calls
  | header header calls => exact (reaches_parseHeader header).trans (WindowRun.reaches_calls calls)

namespace Session

variable {session : Session} {c c' : Cursor} {windows : WindowRun}

theorem Resumes.reaches (ready : session.Ready) (h : session.Resumes c windows c') :
    c.Reaches c' := by
  cases h with
  | windows stage => exact .refl _
  | header stage opens => exact opens.reaches
  | @table _ _ table _ _ _ _ stage ran whole installed =>
    have resumes : session.ResumesTable c _ _ table c := .table stage
    have sound := TableStage.sound_run (resumes.ready ready) c
    rw [ran] at sound
    exact sound.2

theorem ResumesTable.reaches {version : Version} {sizes : CacheSizes} {stage : TableStage}
    (h : session.ResumesTable c version sizes stage c') : c.Reaches c' := by
  cases h with
  | table stage => exact .refl _
  | header stage header checked => exact TableStage.reaches_parseHeader header

end Session

namespace StreamDecoder

variable {d : StreamDecoder} {config : DecoderConfig} {sink sink' : Sink}
  {pieces : List (List UInt8)} {session : Session} {c : Cursor} {call : WindowCall}

theorem length_runs (ready : d.Ready config) (h : d.Runs sink pieces session c sink') :
    c.offset + c.rest.length ≤ d.offset + d.pending.length + pieces.flatten.length := by
  induction h with
  | next decoding =>
    simp only [List.flatten_cons, List.length_append]
    omega
  | @later d d' sink sink' sink'' piece rest session c first others ih =>
    have sound := sound_decodeChunk ready piece sink
    rw [first] at sound
    obtain ⟨readyNext, counted, -⟩ := sound
    have := ih readyNext
    rw [List.flatten_cons, List.length_append]
    omega

theorem length_calls (ready : d.Ready config)
    (h : d.Calls sink pieces call ∨ d.CallsTable sink pieces call) :
    call.cursor.offset + call.cursor.rest.length ≤
      d.offset + d.pending.length + pieces.flatten.length := by
  rcases h with ⟨session, c, sink', runs, windows, c', resumes, calls⟩ |
    ⟨session, c, sink', runs, version, sizes, stage, c', inner, resumes, calls, rfl⟩
  · have readySession := (sound_runs ready runs).1
    have reaches := (resumes.reaches readySession).trans (WindowRun.reaches_calls calls)
    have ends := reaches.offset_add_length
    have arrived := length_runs ready runs
    omega
  · have reaches := resumes.reaches.trans (TableStage.reaches_calls calls)
    have ends := reaches.offset_add_length
    have arrived := length_runs ready runs
    simp only
    omega

/-- There is room for the sums of a session: sizes are words that hold the lengths of three sections,
and the limit, the dictionary and the delta are far enough from the largest word. -/
structure Room (words : Nat) (dictionary : Array UInt8) (config : DecoderConfig) (length : Nat) :
    Prop where
  sections : 3 * Varint.maxInt32 < words
  target : config.maxTargetFile + Varint.maxInt32 < min words UInt64.size
  segment : dictionary.size + Varint.maxInt32 < UInt64.size
  input : length + 3 * Varint.maxInt32 < UInt64.size

theorem decoded_calls (ready : d.Ready config) (h : d.Calls sink pieces call) :
    call.context.decoded ≤ config.maxTargetFile := by
  obtain ⟨session, c, sink', runs, windows, c', resumes, calls⟩ := h
  obtain ⟨readySession, rfl, -⟩ := sound_runs ready runs
  exact WindowRun.decoded_calls (resumes.ready readySession).1 calls

/-- The delta of a code table has a dictionary and a limit of its own. -/
theorem decoded_callsTable (ready : d.Ready config) (h : d.CallsTable sink pieces call) :
    call.context.decoded ≤ TableStage.config.maxTargetFile ∧
      call.context.dictionary = CodeTable.standardBytes := by
  obtain ⟨session, c, sink', runs, version, sizes, stage, c', inner, resumes, calls, rfl⟩ := h
  obtain ⟨run, behind, readyRun, -, calls⟩ := calls.windows_of
    (resumes.ready (sound_runs ready runs).1)
  have decoded := WindowRun.decoded_calls readyRun calls
  have dictionary := (WindowRun.sound_calls readyRun calls).2.1
  exact ⟨decoded, dictionary⟩

/-- Every call of a session has an answer, whatever the dictionary, the settings, the bytes and the
pieces that they come in: no precondition inside the decoder is ever broken. The offset and the bytes
left over count all the bytes that have arrived, and what has been decoded is what has been written
and within the limit. If there is room for them, no sum goes beyond a word. -/
theorem feed_answers (dictionary : Array UInt8) (config : DecoderConfig) (sink : Sink)
    (pieces : List (List UInt8)) :
    let d := ((idle config).start dictionary).2
    (match d.feed sink pieces with
      | (.error error, _) => error ≠ .breach
      | (.ok d', sink') => d'.finish.1 ≠ .error .breach ∧
          d'.offset + d'.pending.length = pieces.flatten.length ∧
          sink'.written.size = sink.written.size + d'.decoded ∧ d'.decoded ≤ config.maxTargetFile) ∧
    ∀ words, Room words dictionary config pieces.flatten.length →
      ∀ call, d.Calls sink pieces call ∨ d.CallsTable sink pieces call → call.InWords words := by
  have ready := ready_start dictionary config
  refine ⟨answers_feed dictionary config sink pieces, fun words room call calls => ?_⟩
  obtain ⟨sections, target, segment, input⟩ := room
  have length := length_calls ready calls
  have offset : ((idle config).start dictionary).2.offset = 0 := rfl
  have pending : ((idle config).start dictionary).2.pending = [] := rfl
  rw [offset, pending, List.length_nil] at length
  rcases calls with calls | calls
  · obtain ⟨readyCall, sameDictionary, -⟩ := sound_calls ready calls
    have decoded := decoded_calls ready calls
    have same : call.context.dictionary = dictionary := Option.some.inj sameDictionary
    exact WindowCall.inWords_of_ready readyCall ⟨sections, by omega, by rwa [same], by omega⟩
  · obtain ⟨decoded, same⟩ := decoded_callsTable ready calls
    have limit : TableStage.config.maxTargetFile ≤ Varint.maxInt32 := by decide
    refine WindowCall.inWords_of_ready (sound_callsTable ready calls).1
      ⟨sections, by omega, ?_, by omega⟩
    rw [same, CodeTable.size_standardBytes]
    decide

/-- The lengths of two sections fill a word of 32 bits, and the third is two bytes more. -/
def wideSections : List UInt8 :=
  [0xD6, 0xC3, 0xC4, 0, 0, 0, 0x0D, 1, 0, 0x87, 0xFF, 0xFF, 0xFF, 0x7F,
    0x87, 0xFF, 0xFF, 0xFF, 0x7F, 2]

theorem calls_wideSections : ((idle {}).start #[]).2.Calls {} [wideSections]
    ((WindowRun.ofDecoder (.ofVersion .standard)).nextCall #[] {} ⟨5, wideSections.drop 5⟩ {}) :=
  ⟨_, _, _, .next rfl, _, _, .header rfl (.standard (by rfl)), .next (by decide)⟩

theorem feed_answers_wide :
    Room UInt64.size #[] {} wideSections.length ∧
      ∃ call, ((idle {}).start #[]).2.Calls {} [wideSections] call ∧ call.InWords UInt64.size := by
  have room : Room UInt64.size #[] {} wideSections.length :=
    ⟨by decide, by decide, by decide, by decide⟩
  exact ⟨room, _, calls_wideSections,
    (feed_answers #[] {} {} [wideSections]).2 UInt64.size room _ (.inl calls_wideSections)⟩

end StreamDecoder

/-! ## Sums that are not words -/

namespace WindowHeader

theorem parseIn_breach {words : Nat} {context : Context}
    {check? : Nat → Option (Except FormatError Unit)} {s s' : HeaderState} {n : Nat}
    (read : declared context s = (.ok n, s')) (unchecked : check? n = none) :
    parseIn words context check? s = (.error .breach, s') := by
  simp only [declared] at read
  rcases segment : HeaderStep.indicatorAndSegment context.dictionarySize context.decoded
    context.allowTarget s with ⟨outcome, s₁⟩
  cases outcome with
  | error stop =>
    rw [HeaderStep.bind_error segment] at read
    cases read
  | ok p =>
    rw [HeaderStep.bind_ok segment] at read
    rw [parseIn, HeaderStep.bind_ok segment]
    dsimp only
    rw [HeaderStep.bind_ok read, unchecked]
    exact HeaderStep.bind_error rfl

theorem declared_toBytes {header : WindowHeader} {context : Context}
    (segment : header.segment.Within context.dictionarySize context.decoded context.allowTarget)
    (fields : header.Fields) {c c' : Cursor} (takes : c.Takes header.toBytes c') :
    ∃ s, declared context (.ofCursor c) = (.ok header.targetLength, s) := by
  obtain ⟨c₁, front, takes⟩ := @Cursor.Takes.split _ _
    (header.indicator.toByte :: segmentBytes header.segment) _ takes
  obtain ⟨c₂, delta, takes⟩ := takes.split
  obtain ⟨c₃, target, -⟩ := takes.split
  refine ⟨⟨c₃, header.deltaLength, c₂.offset⟩, ?_⟩
  rw [declared, HeaderStep.bind_ok (indicatorAndSegment_run segment fields.segment front)]
  exact HeaderStep.windowLengths_run fields.deltaLength fields.targetLength delta target

end WindowHeader

theorem WindowCall.not_inWords {call : WindowCall} {words : Nat} (phase : call.decoder.phase = .header)
    (breach : (call.decoder.readHeaderIn words call.context call.cursor).1 = .error .breach) :
    ¬ call.InWords words := by
  intro inWords
  obtain ⟨-, answers, -⟩ := WindowHeader.safe_parse (call.context.headerContext call.decoder.version)
    (call.context.config.checkLength call.context.decoded) (.ofCursor call.cursor) _ _
    (HeaderState.started_ofCursor _) rfl
  rw [inWords.header phase] at breach
  exact answers breach

/-! ### Windows of one RUN -/

/-- A RUN in the standard table, with its size behind the opcode. -/
def SectionBytes.ofRun (n : Nat) (byte : UInt8) : SectionBytes :=
  .code [0] ++ (.code (Varint.encode n) ++ .literal false [byte])

def WindowHeader.ofRun (n : Nat) : WindowHeader where
  segment := .none
  targetLength := n
  sections := ⟨1, 1 + (Varint.encode n).length, 0, none⟩

def runWindow (n : Nat) (byte : UInt8) : List UInt8 :=
  (WindowHeader.ofRun n).toBytes ++ (SectionBytes.ofRun n byte).toList

theorem makes_ofRun {n : Nat} (positive : 0 < n) (field : n ≤ Varint.maxInt32) (byte : UInt8)
    (sizes : CacheSizes) (source : Array UInt8) :
    Makes .standard false sizes source ((Edit.run n byte).replay source #[]) (.ofRun n byte)
      (.empty sizes) := by
  have reads : (Slot.run 0).parse.Reads (Varint.encode n) (some (.run n)) :=
    (Varint.reads_encode_int32 field).bind_pure fun c => rfl
  have carries : Slot.Carries (.run 0) false (.empty sizes) (source.size + 0) (.run n byte)
      (.code (Varint.encode n) ++ .literal false [byte]) (.empty sizes) :=
    ⟨_, _, _, rfl, positive, reads, .run n byte⟩
  exact .single .none rfl carries

theorem describes_ofRun (n : Nat) (byte : UInt8) :
    (WindowHeader.ofRun n).sections.Describes (.ofRun n byte) :=
  ⟨rfl, by simp [WindowHeader.ofRun, SectionBytes.ofRun, SectionBytes.code, SectionBytes.literal,
    Nat.add_comm], rfl⟩

namespace WindowDecoder

theorem decode_runWindow {d : WindowDecoder} (same : (ofVersion .standard).SameStart d)
    {dictionary : Array UInt8} {config : DecoderConfig} (disallowed : config.allowTarget = false)
    {n decoded : Nat} (positive : 0 < n) (fields : (WindowHeader.ofRun n).Fields)
    (checked : config.checkLength decoded n = .ok ()) (byte : UInt8) (offset : Nat)
    (rest : List UInt8) :
    ∃ d' target, d.decode ⟨dictionary, config, decoded⟩ ⟨offset, runWindow n byte ++ rest⟩ #[] =
        ⟨.ok (.complete 0 n), d', ⟨offset + (runWindow n byte).length, rest⟩, target⟩ ∧
      target.size = n ∧ d.SameStart d' := by
  have makes := makes_ofRun positive fields.targetLength byte d.cache.sizes
    (AddressSpace.source ⟨dictionary, .none, 0⟩ #[])
  rw [show CodeTable.standard = d.reader.table from same.table] at makes
  have size : ((Edit.run n byte).replay (AddressSpace.source ⟨dictionary, .none, 0⟩ #[]) #[]).size =
      n := by
    rw [Edit.size_replay, Array.size_empty, Nat.zero_add, Edit.size]
  obtain ⟨d', decodes, same'⟩ := @decode_makes d ⟨dictionary, config, decoded⟩
    ⟨offset, runWindow n byte ++ rest⟩ ⟨offset + (runWindow n byte).length, rest⟩ #[] _ _ _
    (WindowHeader.ofRun n) false same.phase.2 (by simp [WindowContext.historySize, disallowed]) makes size
    (describes_ofRun n byte) ⟨trivial, fields.targetLength, checked⟩ fields (fun _ h => by cases h)
    (fun h => absurd h (by simp [WindowHeader.ofRun])) (Cursor.takes_append offset _ rest)
  rw [size, Array.size_empty, Nat.zero_add, Array.empty_append] at decodes
  exact ⟨d', _, decodes, size, same'⟩

end WindowDecoder

/-- Where targets are not kept, a run of windows goes on as long as the limit allows. -/
theorem WindowRun.calls_runWindows {start : WindowRun}
    (same : (WindowDecoder.ofVersion .standard).SameStart start.decoder) (fresh : start.target = #[])
    {dictionary : Array UInt8} {config : DecoderConfig} (disallowed : config.allowTarget = false)
    {n : Nat} (positive : 0 < n) (fields : (WindowHeader.ofRun n).Fields)
    (window : n ≤ config.maxTargetWindow) (unplanned : config.plannedTargetFile = none)
    {count : Nat} (limit : start.total + count * n ≤ config.maxTargetFile) (byte : UInt8)
    (offset : Nat) {rest : List UInt8} (more : rest ≠ []) {sink : Sink}
    (unbounded : sink.capacity = none) :
    ∃ call, Calls dictionary config none start
        ⟨offset, (List.replicate count (runWindow n byte)).flatten ++ rest⟩ sink call ∧
      (WindowDecoder.ofVersion .standard).SameStart call.decoder ∧
      call.context = ⟨dictionary, config, start.total + count * n⟩ ∧ call.cursor.rest = rest := by
  induction count generalizing start offset sink with
  | zero =>
    refine ⟨_, .next ?_, same, by simp [nextCall], rfl⟩
    simpa [Cursor.isEmpty] using more
  | succ count ih =>
    obtain ⟨d, target, total⟩ := start
    simp only at same fresh limit
    subst fresh
    have length : total + (count + 1) * n = total + n + count * n := by
      rw [Nat.succ_mul]
      omega
    have checked : config.checkLength total n = .ok () :=
      DecoderConfig.checkLength_accepts window (by omega) (by simp [unplanned])
    obtain ⟨d', target, decoded, size, same'⟩ := @WindowDecoder.decode_runWindow d same dictionary config
      disallowed n total positive fields checked byte offset
      ((List.replicate count (runWindow n byte)).flatten ++ rest)
    obtain ⟨call, calls, sameCall, context, behind⟩ := @ih
      ⟨d', #[], total + n⟩ (same.trans same') rfl (by simp only; omega)
      (offset + (runWindow n byte).length) { sink with written := sink.written ++ target.extract 0 n }
      unbounded
    have goes : ¬ ((none : Option Nat) = some total ∨ Cursor.isEmpty ⟨offset, runWindow n byte ++
        ((List.replicate count (runWindow n byte)).flatten ++ rest)⟩ = true) := by
      simp [Cursor.isEmpty, more]
    rw [List.replicate_succ, List.flatten_cons, List.append_assoc, length]
    refine ⟨call, .later goes decoded rfl (write_unbounded unbounded _) ?_, sameCall, context, behind⟩
    simp only [next, disallowed]
    exact calls

namespace StreamDecoder

/-- The settings that limit least, without references to earlier targets. -/
def largest : DecoderConfig :=
  { maxTargetWindow := UInt64.size - 1, maxTargetFile := UInt64.size - 1, allowTarget := false }

def manyWindows (count n : Nat) (byte : UInt8) : List UInt8 :=
  FileHeader.toBytes { version := .standard, cacheSizes := none } ++
    ((List.replicate count (runWindow n byte)).flatten ++ runWindow n byte)

theorem calls_manyWindows {n count : Nat} (positive : 0 < n) (fields : (WindowHeader.ofRun n).Fields)
    (limit : count * n < UInt64.size) (byte : UInt8) :
    ∃ call, ((idle largest).start #[]).2.Calls {} [manyWindows count n byte] call ∧
      call.decoder.phase = .header ∧ call.decoder.version = .standard ∧
      call.context = ⟨#[], largest, count * n⟩ ∧ call.cursor.rest = runWindow n byte := by
  have opens := TableStage.parseHeader_toBytes { version := .standard, cacheSizes := none } 0
    ((List.replicate count (runWindow n byte)).flatten ++ runWindow n byte)
  have field : n ≤ Varint.maxInt32 := fields.targetLength
  have small : Varint.maxInt32 ≤ largest.maxTargetWindow := by decide
  obtain ⟨call, calls, same, context, rest⟩ := @WindowRun.calls_runWindows
    (.ofDecoder (.ofVersion .standard)) ⟨⟨rfl, rfl⟩, rfl, rfl, rfl⟩ rfl #[] largest rfl n positive
    fields (by omega) rfl count
    (by
      simp only [WindowRun.ofDecoder, largest]
      omega)
    byte (0 + 5) (runWindow n byte) (fun h => by cases h) {} rfl
  refine ⟨call, ⟨_, _, _, .next rfl, _, _, .header rfl (.standard opens), calls⟩, same.phase.2,
    same.version.symm, ?_, rest⟩
  rw [context, WindowRun.ofDecoder, Nat.zero_add]

theorem not_inWords_manyWindows {n count : Nat} (positive : 0 < n)
    (fields : (WindowHeader.ofRun n).Fields) (limit : count * n < UInt64.size)
    (beyond : UInt64.size ≤ count * n + n) (byte : UInt8) :
    ∃ call, ((idle largest).start #[]).2.Calls {} [manyWindows count n byte] call ∧
      ¬ call.InWords UInt64.size := by
  obtain ⟨call, calls, phase, version, context, rest⟩ := calls_manyWindows positive fields limit byte
  refine ⟨call, calls, WindowCall.not_inWords phase ?_⟩
  obtain ⟨decoder, _, ⟨offset, _⟩, target, sink⟩ := call
  simp only at version context rest
  subst context rest
  have field : n ≤ largest.maxTargetWindow :=
    Nat.le_trans fields.targetLength (show Varint.maxInt32 ≤ largest.maxTargetWindow by decide)
  have unchecked : largest.checkLength? (count * n) n = none := by
    rw [DecoderConfig.checkLength?, if_neg (Nat.not_lt.2 field), Word.add?_eq_none beyond]
    rfl
  obtain ⟨s, read⟩ := @WindowHeader.declared_toBytes (.ofRun n)
    (WindowContext.headerContext ⟨#[], largest, count * n⟩ .standard) trivial fields _ _
    (Cursor.takes_append offset _ (SectionBytes.ofRun n byte).toList)
  rw [WindowDecoder.readHeaderIn, version]
  exact congrArg Prod.fst (WindowHeader.parseIn_breach read unchecked)

/-- Three sums that are not words: the lengths of the sections of one window, as a size of 32 bits;
the size of a target of 2^64 bytes, of which each window is within its limit; and the first mode of
the SAME cache behind 254 NEAR slots, as a byte. The last one is not formed in a session, since no
code table is valid for so many modes. -/
theorem feed_overflows :
    (∃ call, ((idle {}).start #[]).2.Calls {} [wideSections] call ∧ ¬ call.InWords UInt32.size) ∧
    (∃ call, ((idle largest).start #[]).2.Calls {} [manyWindows 0x200000004 Varint.maxInt32 0] call ∧
      ¬ call.InWords UInt64.size) ∧
    ∃ sizes, CacheSizes.check 254 0 = .ok sizes ∧
      (AddressCache.empty sizes).decode 10 0 ⟨0, [5]⟩ = .error .breach := by
  have fields : (WindowHeader.ofRun Varint.maxInt32).Fields :=
    ⟨trivial, Nat.le_refl _, by decide +kernel, fun _ h => by cases h⟩
  refine ⟨⟨_, calls_wideSections, WindowCall.not_inWords rfl (by decide +kernel)⟩, ?_, _, rfl,
    by decide +kernel⟩
  exact not_inWords_manyWindows (by decide) fields (by decide) (by decide) 0

end StreamDecoder

end DeltaCoding
