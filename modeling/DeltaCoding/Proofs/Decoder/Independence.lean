import DeltaCoding.Proofs.Decoder.Moving
import DeltaCoding.Proofs.Decoder.Opening
import DeltaCoding.Proofs.Decoder.RoundTrip
import DeltaCoding.Proofs.Decoder.Verdict

namespace DeltaCoding

namespace StreamDecoder

variable {config : DecoderConfig} {sink sink' : Sink}

/-- Two results of whole sessions that are the same but for the place of an error, and for `front` in
front of what has been written. -/
def Behind (front : Array UInt8) (p q : Except DecodeError Unit × Sink) : Prop :=
  q.2 = p.2.behind front ∧ p.1.mapError DecodeError.unlocated = q.1.mapError DecodeError.unlocated

theorem Behind.agree {front : Array UInt8} {p p' q q' : Except DecodeError Unit × Sink}
    (h : Behind front p q) (hp : Agree p' p) (hq : Agree q' q) : Behind front p' q' :=
  ⟨by rw [hp.1, hq.1]; exact h.1, hp.2.trans (h.2.trans hq.2.symm)⟩

theorem behind_conclude {session : Session} {start start' : WindowRun} {c c' : Cursor} {n : Nat}
    {front : Array UInt8}
    (moved : WindowRun.Moved n front (start.run session.dictionary session.config none c sink)
      (start'.run session.dictionary session.config none c' sink')) :
    Behind front (conclude config (session.runWindows start c sink))
      (conclude config (session.runWindows start' c' sink')) := by
  simp only [Session.runWindows]
  generalize start.run _ _ _ c _ = p at *
  generalize start'.run _ _ _ c' _ = q at *
  obtain ⟨outcome, sink₁⟩ := p
  obtain ⟨outcome', sink₂⟩ := q
  rcases outcome with error | ⟨run, c₁⟩
  · rcases outcome' with error' | p'
    · exact ⟨moved.2, congrArg Except.error moved.1⟩
    · exact moved.elim
  · rcases outcome' with error' | ⟨run', c₂⟩
    · exact moved.elim
    · obtain ⟨sinks, inWindow, place⟩ := moved
      refine ⟨sinks, ?_⟩
      cases outside : run.decoder.inWindow with
      | false =>
        rw [place outside]
        simp only [conclude, finish, Session.isComplete, ← inWindow, outside, Cursor.shift_rest]
        split <;> rfl
      | true =>
        simp only [conclude, finish, Session.isComplete, ← inWindow, outside, Bool.not_true,
          Bool.and_false]
        rfl

theorem behind_shift {decoder : WindowDecoder} (phase : decoder.phase = .header) (c : Cursor)
    (sink : Sink) (session : Session) (n : Nat) :
    Behind #[] (conclude session.config (session.runWindows (.ofDecoder decoder) c sink))
      (conclude session.config (session.runWindows (.ofDecoder decoder) (c.shift n) sink)) := by
  have moved := @WindowRun.moved_run session.dictionary session.config (.ofDecoder decoder) decoder
    ((WindowDecoder.Keeps.refl decoder).sameStart phase phase) c n sink #[] fun _ _ => .refl _
  rw [Sink.behind_empty] at moved
  exact behind_conclude moved

end StreamDecoder

namespace Session

/-- A session that is in front of its windows. -/
def ofDecoder (dictionary : Array UInt8) (config : DecoderConfig) (decoder : WindowDecoder) :
    Session :=
  ⟨dictionary, config, .windows (.ofDecoder decoder)⟩

theorem run_ofDecoder_nil (dictionary : Array UInt8) (config : DecoderConfig)
    (decoder : WindowDecoder) (sink : Sink) :
    (ofDecoder dictionary config decoder).run ⟨0, []⟩ sink =
      (.ok (ofDecoder dictionary config decoder, ⟨0, []⟩), sink) := by
  have stops : (WindowRun.ofDecoder decoder).run dictionary config none ⟨0, []⟩ sink =
      (.ok (.ofDecoder decoder, ⟨0, []⟩), sink) := WindowRun.run_stops (.inr rfl)
  simp only [ofDecoder, run, runWindows, stops]

end Session

/-! ## Code tables -/

/-- A code table that comes over the wire, in front of the windows, is as good as one that has been
installed directly, whatever the windows are and whatever pieces they come in. -/
theorem decodeStream_tableHeader (dictionary : Array UInt8) (config : DecoderConfig) (sink : Sink)
    (version : Version) {near same : UInt8} {sizes : CacheSizes} {table : CodeTable}
    (checked : CacheSizes.check near.toNat same.toNat = .ok sizes)
    (valid : table.validate sizes.maxMode = .ok ()) :
    ∃ delta, table.toDelta = .ok delta ∧ ∀ (windows : List UInt8) (pieces pieces' : List (List UInt8)),
      pieces.flatten = FileHeader.toBytes { version, cacheSizes := some (near, same) } ++
          (delta ++ windows) → pieces'.flatten = windows →
        let wire := decodeStream dictionary config sink pieces
        let direct := (StreamDecoder.ofSession (.ofDecoder dictionary config
          ((WindowDecoder.ofVersion version).withTable table sizes))).decodePieces sink pieces'
        wire.2 = direct.2 ∧
          wire.1.mapError DecodeError.unlocated = direct.1.mapError DecodeError.unlocated := by
  obtain ⟨window, written, -, -⟩ := table.toDelta_accepted
  refine ⟨_, written, ?_⟩
  generalize FileHeader.toBytes { version := .standard, cacheSizes := none } ++ window = delta at *
  intro windows pieces pieces' flat flat'
  obtain ⟨rfl, rfl⟩ := Session.bytes_of_check checked
  generalize installed : (WindowDecoder.ofVersion version).withTable table sizes = decoder
  have between : (WindowRun.ofDecoder decoder).Between dictionary config := by
    rw [← installed]
    exact WindowRun.between_ofDecoder (CodeTable.valid_of_validate valid) rfl
  have wire := StreamDecoder.agree_start dictionary config sink pieces
  rw [flat, ← List.append_assoc, Session.run_tableHeader written valid version 0 windows rfl,
    installed] at wire
  have direct := @StreamDecoder.agree_pieces (.ofDecoder dictionary config decoder) between.ready
    (Session.run_ofDecoder_nil dictionary config decoder) sink pieces'
  rw [flat'] at direct
  have shifted := StreamDecoder.behind_shift between.phase ⟨0, windows⟩ sink
    (Session.start dictionary config)
  obtain ⟨sinks, verdicts⟩ := (shifted _).agree direct wire
  rw [Sink.behind_empty] at sinks
  exact ⟨sinks, verdicts.symm⟩

/-- With two opcodes of the standard table interchanged, adding one byte is opcode 3. -/
theorem decodeStream_tableHeader_swap :
    let table : CodeTable := ⟨CodeTable.standard.entries.swap 2 3⟩
    let windows : List UInt8 := [0, 7, 1, 0, 1, 1, 0, 0x61, 3]
    let direct := (StreamDecoder.ofSession (.ofDecoder #[] {}
      ((WindowDecoder.ofVersion .standard).withTable table .standard))).decodePieces {}
        [[0, 7, 1, 0, 1], [1, 0, 0x61, 3]]
    CacheSizes.check (4 : UInt8).toNat (3 : UInt8).toNat = .ok .standard ∧
      table.validate CacheSizes.standard.maxMode = .ok () ∧
      direct.1 = .ok () ∧ direct.2.written = #[0x61] ∧
      ∃ delta, table.toDelta = .ok delta ∧
        let wire := decodeStream #[] {} {} [FileHeader.toBytes
          { version := .standard, cacheSizes := some (4, 3) } ++ delta, windows]
        wire.2 = direct.2 ∧
          wire.1.mapError DecodeError.unlocated = direct.1.mapError DecodeError.unlocated := by
  have checked : CacheSizes.check (4 : UInt8).toNat (3 : UInt8).toNat = .ok .standard := by decide
  have valid : (CodeTable.mk (CodeTable.standard.entries.swap 2 3)).validate
      CacheSizes.standard.maxMode = .ok () := by decide +kernel
  obtain ⟨delta, written, same⟩ := decodeStream_tableHeader #[] {} {} .standard checked valid
  exact ⟨checked, valid, by decide +kernel, by decide +kernel, delta, written,
    same [0, 7, 1, 0, 1, 1, 0, 0x61, 3] _ _ (by simp) rfl⟩

/-! ## Windows that stand alone -/

namespace WindowRun

variable {dictionary : Array UInt8} {config : DecoderConfig} {decoder : WindowDecoder}

theorem run_between (disallowed : config.allowTarget = false)
    (between : (ofDecoder decoder).Between dictionary config) {offset offset' : Nat}
    {bytes : List UInt8} {r : WindowRun} {sink : Sink}
    (ran : (ofDecoder decoder).run dictionary config none ⟨offset, bytes⟩ {} =
      (.ok (r, ⟨offset', []⟩), sink)) (phase : r.decoder.phase = .header) :
    offset' = offset + bytes.length ∧ r = ⟨r.decoder, #[], sink.written.size⟩ ∧
      sink = ({} : Sink).behind sink.written := by
  have sound := sound_run between.ready none ⟨offset, bytes⟩ {}
  have unbounded := @capacity_run dictionary config none ⟨offset, bytes⟩ {} (ofDecoder decoder)
  rw [ran] at sound unbounded
  obtain ⟨ready, reaches, count⟩ := sound
  have ends := reaches.offset_add_length
  have empty := ready.ready.header phase
  rw [WindowContext.historySize, disallowed, if_neg (by decide), Array.size_eq_zero_iff] at empty
  obtain ⟨d, target, total⟩ := r
  obtain ⟨written, capacity⟩ := sink
  simp only [List.length_nil, Nat.add_zero, ofDecoder, Array.size_empty, Nat.zero_add]
    at ends count empty unbounded ⊢
  subst ends empty count unbounded
  refine ⟨rfl, rfl, ?_⟩
  simp only [Sink.behind, Array.append_empty, Option.map_none]

end WindowRun

namespace StreamDecoder

variable {session : Session} {decoder : WindowDecoder} {offset : Nat} {first second : List UInt8}

/-- Where windows may not refer to the target so far and the limits do not bind, those behind whole
windows come to the same as on their own. -/
theorem behind_first (disallowed : session.config.allowTarget = false)
    (planned : session.config.plannedTargetFile = none)
    (between : (WindowRun.ofDecoder decoder).Between session.dictionary session.config) {a : Sink}
    (ended : conclude session.config
      (session.runWindows (.ofDecoder decoder) ⟨offset, first⟩ {}) = (.ok (), a))
    (limit : a.written.size +
      (session.runWindows (.ofDecoder decoder) ⟨offset, second⟩ {}).2.written.size +
        Varint.maxInt32 ≤ session.config.maxTargetFile) :
    Behind a.written
      (conclude session.config (session.runWindows (.ofDecoder decoder) ⟨offset, second⟩ {}))
      (conclude session.config
        (session.runWindows (.ofDecoder decoder) ⟨offset, first ++ second⟩ {})) := by
  obtain ⟨r, offset', ran, phase⟩ := conclude_ok (congrArg Prod.fst ended)
  rw [congrArg Prod.snd ended] at ran
  obtain ⟨rfl, after, sink⟩ := WindowRun.run_between disallowed between ran phase
  have split := @WindowRun.run_split _ _ none ⟨offset, first⟩ {} _ between.ready second
  rw [ran] at split
  have whole := @agree_conclude session.config _ _ (Session.agree_runWindows split)
  have same := (WindowRun.keeps_run _ ran).sameStart between.phase phase
  have moved := @WindowRun.moved_run session.dictionary session.config (.ofDecoder decoder)
    r.decoder same ⟨offset, second⟩ first.length {} a.written fun decoded within => by
      rw [runWindows_sink] at limit
      simp only [WindowRun.ofDecoder, Array.size_empty, Nat.zero_add, Nat.add_zero]
        at within limit
      exact WindowContext.same_of_limits disallowed planned (by omega) (by omega)
  rw [← sink] at moved
  simp only [WindowRun.ofDecoder, Nat.zero_add] at moved
  rw [← after] at moved
  exact (behind_conclude moved).agree (.refl _) whole

end StreamDecoder

/-- Where windows may not refer to the target so far, those behind a delta that is accepted decode as
they do directly behind its file header: they write the same and end in the same way. The limit on
the target has to leave room for one more window; the largest one of 64 bits does so for any target
that fits into memory. -/
theorem decodeStream_independent (dictionary : Array UInt8) {config : DecoderConfig}
    (disallowed : config.allowTarget = false) (planned : config.plannedTargetFile = none)
    {header first : List UInt8} {decoder : WindowDecoder}
    (opens : Session.Opens ⟨0, header⟩ decoder ⟨header.length, []⟩) {a : Array UInt8}
    (accepted : decodeMemory dictionary (header ++ first) config = .ok a) (second : List UInt8)
    (limit : a.size + (decodeStream dictionary config {} [header ++ second]).2.written.size +
      Varint.maxInt32 ≤ config.maxTargetFile) :
    let alone := decodeStream dictionary config {} [header ++ second]
    let whole := decodeStream dictionary config {} [header ++ first ++ second]
    whole.2.written = a ++ alone.2.written ∧
      whole.1.mapError DecodeError.unlocated = alone.1.mapError DecodeError.unlocated ∧
      ∀ b, decodeMemory dictionary (header ++ second) config = .ok b ↔
        decodeMemory dictionary (header ++ first ++ second) config = .ok (a ++ b) := by
  have opened (windows : List UInt8) : decodeStream dictionary config {} [header ++ windows] =
      StreamDecoder.conclude config ((Session.start dictionary config).runWindows
        (.ofDecoder decoder) ⟨header.length, windows⟩ {}) := by
    rw [decodeStream_singleton]
    exact congrArg _ ((opens.extend windows).run dictionary config {})
  obtain ⟨verdict, rfl⟩ := decodeMemory_ok_iff.1 accepted
  rw [opened second, StreamDecoder.conclude_sink] at limit
  have behind : StreamDecoder.Behind (decodeStream dictionary config {} [header ++ first]).2.written
      (decodeStream dictionary config {} [header ++ second])
      (decodeStream dictionary config {} [header ++ first ++ second]) := by
    rw [List.append_assoc, opened second, opened (first ++ second)]
    exact StreamDecoder.behind_first disallowed planned opens.between
      ((opened first).symm.trans (Prod.ext verdict rfl)) limit
  refine ⟨congrArg Sink.written behind.1, behind.2.symm, fun b => ?_⟩
  rw [decodeMemory_ok_iff, decodeMemory_ok_iff, StreamDecoder.ok_iff_of_unlocated behind.2,
    behind.1]
  exact and_congr_right fun _ => Array.append_right_inj _ |>.symm

/-- The first window leaves half an opcode behind. -/
theorem decodeStream_independent_halfOpcode :
    let config : DecoderConfig := { maxTargetFile := 0xFFFFFFFFFFFFFFFF, allowTarget := false }
    let header : List UInt8 := [0xD6, 0xC3, 0xC4, 0, 0]
    let first : List UInt8 := [0, 7, 1, 0, 1, 1, 0, 0x61, 163]
    let second : List UInt8 := [0, 7, 1, 0, 1, 1, 0, 0x62, 2]
    let alone := decodeStream #[] config {} [header ++ second]
    let whole := decodeStream #[] config {} [header ++ first ++ second]
    config.allowTarget = false ∧ config.plannedTargetFile = none ∧
      Session.Opens ⟨0, header⟩ (.ofVersion .standard) ⟨header.length, []⟩ ∧
      decodeMemory #[] (header ++ first) config = .ok #[0x61] ∧
      (1 + alone.2.written.size + Varint.maxInt32 ≤ config.maxTargetFile) ∧
      alone.2.written = #[0x62] ∧
      whole.2.written = #[0x61] ++ alone.2.written ∧
      whole.1.mapError DecodeError.unlocated = alone.1.mapError DecodeError.unlocated ∧
      ∀ b, decodeMemory #[] (header ++ second) config = .ok b ↔
        decodeMemory #[] (header ++ first ++ second) config = .ok (#[0x61] ++ b) := by
  intro config header first second alone whole
  have opens : Session.Opens ⟨0, header⟩ (.ofVersion .standard) ⟨header.length, []⟩ :=
    .standard rfl
  have accepted : decodeMemory #[] (header ++ first) config = .ok #[0x61] := by decide +kernel
  have written : alone.2.written = #[0x62] := by decide +kernel
  have limit : 1 + alone.2.written.size + Varint.maxInt32 ≤ config.maxTargetFile := by
    rw [written]
    decide
  exact ⟨rfl, rfl, opens, accepted, limit, written,
    decodeStream_independent #[] rfl rfl opens accepted second limit⟩

end DeltaCoding
