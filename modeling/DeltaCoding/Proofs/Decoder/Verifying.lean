import DeltaCoding.Proofs.Checksum
import DeltaCoding.Proofs.Decoder.Truncation
import DeltaCoding.Proofs.Window.Verifying

namespace DeltaCoding

variable {dictionary : Array UInt8} {config : DecoderConfig} {decoder : WindowDecoder}
  {start : WindowRun} {windows : List PlacedWindow} {c c' : Cursor} {sink : Sink} {checksum : Nat}
  {made : Array UInt8}

theorem WindowRun.run_mismatch (between : start.Between dictionary config)
    (window : start.decoder.Checksummed ⟨dictionary, config, start.total⟩ start.target c checksum
      made)
    (other : (Checksum.adler32 made.toList).toNat ≠ checksum) (sink : Sink) :
    ∃ offset, run dictionary config none c sink start = (.error (.format offset
      (.checksumMismatch checksum (Checksum.adler32 made.toList).toNat)), sink) := by
  obtain ⟨offset, refused⟩ := WindowDecoder.decode_mismatch between.phase window other
  obtain ⟨header, s, read, -, -⟩ := window
  have there := WindowHeader.consuming_parse _ _ _ _ _ read
  have goes : ¬ (none = some start.total ∨ c.isEmpty = true) := by
    rw [Cursor.isEmpty, List.isEmpty_iff]
    rintro (stops | empty)
    · cases stops
    · simp only [HeaderState.ofCursor, empty, List.length_nil, Nat.not_lt_zero] at there
  refine ⟨offset, ?_⟩
  rw [run_goes _ goes]
  simp only [proceed, refused]

/-- A delta that comes to a window with a wrong checksum is refused, in whatever pieces it comes. The
windows before that one have been written. -/
theorem decodeStream_mismatch {pieces : List (List UInt8)}
    (opens : Session.Opens ⟨0, pieces.flatten⟩ decoder c)
    (before : WindowRun.Windows dictionary config none (.ofDecoder decoder) c windows start c')
    (window : start.decoder.Checksummed ⟨dictionary, config, start.total⟩ start.target c' checksum
      made)
    (other : (Checksum.adler32 made.toList).toNat ≠ checksum) :
    ∃ offset, decodeStream dictionary config {} pieces = (.error (.format offset
      (.checksumMismatch checksum (Checksum.adler32 made.toList).toNat)), ⟨outputs windows, none⟩) := by
  have between : (WindowRun.ofDecoder decoder).Between dictionary config := opens.between
  obtain ⟨offset, refused⟩ := WindowRun.run_mismatch (before.between between) window other
    ⟨outputs windows, none⟩
  have ran := before.run between {} rfl
  have agree := StreamDecoder.agree_start dictionary config {} pieces
  rw [Array.empty_append, refused] at ran
  rw [opens.run, Session.runWindows] at agree
  simp only [Session.start, ran, StreamDecoder.conclude] at agree
  obtain ⟨written, verdict⟩ := agree
  generalize decodeStream dictionary config {} pieces = result at *
  obtain ⟨result, sink⟩ := result
  cases result with
  | ok u => cases verdict
  | error e =>
    obtain ⟨offset', rfl⟩ := DecodeError.format_of_unlocated (Except.error.inj verdict)
    exact ⟨offset', Prod.ext rfl written⟩

namespace Checksum

/-- The checksum is the one of the sums as numbers, and comes out without overflow. It is never the
same for two byte strings that differ in one byte. Therefore a window that was encoded for one of them
and makes the other is refused, in whatever pieces it comes, and so is a delta that comes to such a
window behind others. -/
theorem detects_one_byte :
    (∀ bytes, adler32? bytes = some (adler32 bytes) ∧
      (adler32 bytes).toNat = (highSum bytes <<< 16) ||| lowSum bytes) ∧
    (∀ bytes bytes', DifferInOneByte bytes bytes' → adler32 bytes ≠ adler32 bytes') ∧
    (∀ {d : WindowDecoder} {context : WindowContext} {history made : Array UInt8} {c : Cursor}
      {pieces : List (List UInt8)} {encoded : List UInt8}, d.Ready context history →
      d.phase = .header →
      d.Checksummed context history (c.extend pieces.flatten) (adler32 encoded).toNat made →
      DifferInOneByte encoded made.toList →
        ∃ offset, (d.feed context c history pieces).outcome = .error (.format offset
          (.checksumMismatch (adler32 encoded).toNat (adler32 made.toList).toNat))) ∧
    ∀ {dictionary made : Array UInt8} {config : DecoderConfig} {decoder : WindowDecoder}
      {start : WindowRun} {windows : List PlacedWindow} {c c' : Cursor}
      {pieces : List (List UInt8)} {encoded : List UInt8},
      Session.Opens ⟨0, pieces.flatten⟩ decoder c →
      WindowRun.Windows dictionary config none (.ofDecoder decoder) c windows start c' →
      start.decoder.Checksummed ⟨dictionary, config, start.total⟩ start.target c'
        (adler32 encoded).toNat made →
      DifferInOneByte encoded made.toList →
        ∃ offset, decodeStream dictionary config {} pieces = (.error (.format offset
          (.checksumMismatch (adler32 encoded).toNat (adler32 made.toList).toNat)),
            ⟨outputs windows, none⟩) := by
  have other {encoded : List UInt8} {made : Array UInt8}
      (differ : DifferInOneByte encoded made.toList) :
      (adler32 made.toList).toNat ≠ (adler32 encoded).toNat := by
    intro same
    exact differ.adler32_ne (UInt32.toNat_inj.1 same.symm)
  refine ⟨fun bytes => ⟨adler32?_eq bytes, toNat_adler32 bytes⟩, fun _ _ differ => differ.adler32_ne,
    ?_, ?_⟩
  · intro d context history made c pieces encoded ready phase window differ
    exact WindowDecoder.feed_mismatch ready phase window (other differ)
  · intro dictionary made config decoder start windows c c' pieces encoded opens before window differ
    exact decodeStream_mismatch opens before window (other differ)

/-- A window that copies the whole dictionary and adds a byte. The dictionary is not the one that it
was encoded for. -/
theorem detects_one_byte_dictionary :
    let start := WindowRun.ofDecoder (.ofVersion .sdch)
    let context : WindowContext := ⟨#[1, 2, 9, 4], {}, 0⟩
    let front : List UInt8 := [0xD6, 0xC3, 0xC4, 0x53, 0]
    let pieces : List (List UInt8) := [[5, 4, 0, 12, 5], [0, 0, 3, 0, 129, 168, 128, 18, 253], [0], [7]]
    start.decoder.Ready context #[] ∧
      start.decoder.Checksummed context #[] ⟨5, pieces.flatten⟩ (adler32 [1, 2, 3, 4, 7]).toNat
        #[1, 2, 9, 4, 7] ∧
      DifferInOneByte [1, 2, 3, 4, 7] [1, 2, 9, 4, 7] ∧
      (∃ offset, (start.decoder.feed context ⟨5, []⟩ #[] pieces).outcome =
        .error (.format offset (.checksumMismatch 0x2A0012 0x3C0018))) ∧
      Session.Opens ⟨0, (front :: pieces).flatten⟩ start.decoder ⟨5, pieces.flatten⟩ ∧
      ∃ offset, decodeStream #[1, 2, 9, 4] {} {} (front :: pieces) =
        (.error (.format offset (.checksumMismatch 0x2A0012 0x3C0018)), ⟨#[], none⟩) := by
  intro start context front pieces
  have ready : start.decoder.Ready context #[] :=
    ⟨CodeTable.valid_standard, fun _ => rfl, fun _ h => by cases h⟩
  have differ : DifferInOneByte [1, 2, 3, 4, 7] [1, 2, 9, 4, 7] := by
    refine ⟨rfl, 2, by decide, fun i other => ?_⟩
    match i with
    | 0 | 1 | 3 | 4 => exact absurd rfl other
    | 2 => rfl
    | _ + 5 => exact absurd rfl other
  have encoded : (adler32 [1, 2, 3, 4, 7]).toNat = 0x2A0012 := by decide +kernel
  have made : (adler32 #[1, 2, 9, 4, 7].toList).toNat = 0x3C0018 := by decide +kernel
  have window : start.decoder.Checksummed context #[] ⟨5, pieces.flatten⟩
      (adler32 [1, 2, 3, 4, 7]).toNat #[1, 2, 9, 4, 7] := by
    let header : WindowHeader := ⟨.dictionary 0 4, 5, ⟨0, 3, 0, some 0x2A0012⟩⟩
    let entered := start.decoder.enter header 0
    let body := Sections.interleaved ⟨18, [253, 0, 7]⟩
    let run := (entered.2.bodyState body #[]).run (context.bodyContext entered.1 false)
    have read : start.decoder.readHeader context ⟨5, pieces.flatten⟩ =
        (.ok header, ⟨⟨18, [253, 0, 7]⟩, 12, 9⟩) := by decide +kernel
    obtain ⟨complete, data, instructions, addresses, target⟩ : run.2 = .complete ∧
        run.1.sections.data.rest = [] ∧ run.1.sections.instructions.rest = [] ∧
        run.1.sections.addresses.rest = [] ∧ run.1.target = #[] ++ #[1, 2, 9, 4, 7] := by
      decide +kernel
    exact ⟨header, _, read, by rw [encoded], by decide, body, run.1, rfl, Prod.ext rfl complete,
      ⟨data, instructions, addresses⟩, target⟩
  obtain ⟨-, -, windows, sessions⟩ := detects_one_byte
  have fed := @windows _ context _ _ ⟨5, []⟩ pieces _ ready rfl window differ
  have opens : Session.Opens ⟨0, (front :: pieces).flatten⟩ (.ofVersion .sdch) ⟨5, pieces.flatten⟩ :=
    .standard (by decide +kernel)
  have decoded := sessions opens (.nil start _) window differ
  rw [encoded, made] at fed decoded
  exact ⟨ready, window, differ, fed, opens, decoded⟩

end Checksum

end DeltaCoding
