import DeltaCoding.Proofs.Encoder
import Mathlib.Tactic.IntervalCases

namespace DeltaCoding

theorem decodeMemory_window {dictionary target : Array UInt8} {window : List UInt8}
    (reads : ∀ d : WindowDecoder, d.Follows (.standard false) false →
      d.Reads dictionary #[] window target)
    (nonempty : window ≠ []) (small : target.size ≤ DeltaWriter.maxTarget) :
    decodeMemory dictionary
        (FileHeader.toBytes { version := .standard, cacheSizes := none } ++ window) =
      .ok target := by
  have limits : DecoderConfig.checkLength {} (#[] : Array UInt8).size target.size = .ok () :=
    Encoder.checkLength_default (by rw [Array.size_empty, Nat.zero_add]; exact small)
  have follows := WindowDecoder.follows_ofVersion .standard
  obtain ⟨d, ⟨⟨-, phase⟩, -⟩, run⟩ := @WindowRun.run_reads dictionary #[] target {} none {} _ window
    (reads _ follows) nonempty (fun h => by cases h) rfl limits rfl
    (0 + (FileHeader.toBytes { version := .standard, cacheSizes := none }).length) []
  have done := run.trans (WindowRun.run_stops (.inr rfl))
  rw [List.append_nil, Array.size_empty] at done
  have ran := @Session.run_standardHeader dictionary {} {} .standard 0 window
  simp only [Session.runWindows, Session.start, WindowRun.ofDecoder, done] at ran
  refine (decodeMemory_ok ran ?_).trans ?_
  · simp only [Session.isComplete, WindowDecoder.inWindow, phase]
    rfl
  · exact congrArg Except.ok Array.empty_append

namespace CodeTable

theorem ofBytes_eq_ok {bytes : Array UInt8} {table : CodeTable} (h : ofBytes bytes = .ok table) :
    bytes.size = storedSize ∧ ∀ i : Fin opcodeCount, table.entries.get i =
      let byte (n : Nat) : UInt8 := bytes[n * opcodeCount + i.val]?.getD 0
      ⟨⟨byte 0, byte 2, byte 4⟩, ⟨byte 1, byte 3, byte 5⟩⟩ := by
  rw [ofBytes] at h
  split at h
  · next size =>
    refine ⟨size, fun i => ?_⟩
    change table.entries[i.val] = _
    rw [← Except.ok.inj h]
    exact Vector.getElem_ofFn i.isLt
  · cases h

theorem toBytes_ofBytes {bytes : Array UInt8} {table : CodeTable} (h : ofBytes bytes = .ok table) :
    table.toBytes = bytes := by
  obtain ⟨size, entries⟩ := ofBytes_eq_ok h
  apply Array.ext_getElem?
  intro place
  by_cases inside : place < storedSize
  · obtain ⟨k, i, column, rfl⟩ : ∃ k, ∃ i : Fin opcodeCount,
        k < 6 ∧ k * opcodeCount + i.val = place :=
      ⟨place / opcodeCount, ⟨place % opcodeCount, Nat.mod_lt place (by decide)⟩,
        Nat.div_lt_of_lt_mul (by rw [Nat.mul_comm]; exact inside), Nat.div_add_mod' place _⟩
    have there : bytes[k * opcodeCount + i.val]? =
        some (bytes[k * opcodeCount + i.val]?.getD 0) := by
      rw [Array.getElem?_eq_getElem (by rw [size]; exact inside), Option.getD_some]
    rw [getElem?_toBytes, entries, there]
    interval_cases k <;> rfl
  · rw [Array.getElem?_eq_none (by rw [size_toBytes]; exact Nat.not_lt.1 inside),
      Array.getElem?_eq_none (by rw [size]; exact Nat.not_lt.1 inside)]

/-- The delta of a table makes the stored form of the table from that of the standard table, and the
table is read back from it. Conversely, any bytes of the right number are the stored form of the
table that is read from them. -/
theorem decodeMemory_toDelta (table : CodeTable) :
    (∃ delta, table.toDelta = .ok delta ∧
      decodeMemory standardBytes delta = .ok table.toBytes ∧ ofBytes table.toBytes = .ok table) ∧
    ∀ bytes : Vector UInt8 storedSize, ∃ read, ofBytes bytes.toArray = .ok read ∧
      read.toBytes = bytes.toArray := by
  refine ⟨?_, fun bytes => ?_⟩
  · obtain ⟨window, written, nonempty, reads⟩ := table.toDelta_accepted
    have small : table.toBytes.size ≤ DeltaWriter.maxTarget := by
      rw [size_toBytes]
      decide
    exact ⟨_, written, decodeMemory_window reads nonempty small, ofBytes_toBytes table⟩
  · cases read : ofBytes bytes.toArray with
    | ok table => exact ⟨table, rfl, toBytes_ofBytes read⟩
    | error fault =>
      rw [ofBytes, if_pos bytes.size_toArray] at read
      cases read

end CodeTable

end DeltaCoding
