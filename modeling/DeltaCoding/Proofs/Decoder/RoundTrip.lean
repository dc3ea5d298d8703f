import DeltaCoding.Proofs.Decoder.Chunking
import DeltaCoding.Proofs.Writer.TableDelta

namespace DeltaCoding

theorem DecoderConfig.checkLength_accepts {config : DecoderConfig} {decoded targetLength : Nat}
    (window : targetLength ≤ config.maxTargetWindow)
    (file : decoded + targetLength ≤ config.maxTargetFile)
    (planned : ∀ planned ∈ config.plannedTargetFile, decoded + targetLength ≤ planned) :
    config.checkLength decoded targetLength = .ok () := by
  simp only [checkLength]
  rw [if_neg (Nat.not_lt.2 window), if_neg (Nat.not_lt.2 file)]
  cases known : config.plannedTargetFile with
  | none => rfl
  | some n => exact if_neg (Nat.not_lt.2 (planned n known))

namespace WindowRun

variable {dictionary history target : Array UInt8} {config : DecoderConfig} {stopAt : Option Nat}
  {sink : Sink} {d : WindowDecoder} {bytes : List UInt8}

/-- A window that the decoder reads is written to the sink, and the run goes on behind it. -/
theorem run_reads (reads : d.Reads dictionary history bytes target) (nonempty : bytes ≠ [])
    (goes : stopAt ≠ some history.size) (allowed : config.allowTarget = true)
    (limits : config.checkLength history.size target.size = .ok ())
    (unbounded : sink.capacity = none) (offset : Nat) (rest : List UInt8) :
    ∃ d', d.SameStart d' ∧
      run dictionary config stopAt ⟨offset, bytes ++ rest⟩ sink ⟨d, history, history.size⟩ =
        run dictionary config stopAt ⟨offset + bytes.length, rest⟩
          { sink with written := sink.written ++ target }
          ⟨d', history ++ target, (history ++ target).size⟩ := by
  obtain ⟨d', decoded, same⟩ := reads config allowed limits offset rest
  refine ⟨d', same, ?_⟩
  have more : ¬ (stopAt = some history.size ∨
      Cursor.isEmpty ⟨offset, bytes ++ rest⟩ = true) := by
    rintro (stops | empty)
    · exact goes stops
    · rw [Cursor.isEmpty, List.isEmpty_iff, List.append_eq_nil_iff] at empty
      exact nonempty empty.1
  have output : (history ++ target).extract history.size (history.size + target.size) = target := by
    rw [Array.extract_append_right, Array.extract_size]
  have inside : ¬ (history.size + target.size < history.size + target.size ∨
      history.size + target.size < history.size) := by
    omega
  rw [run_goes _ more]
  simp only [decoded, proceed, Array.size_append, if_neg inside, output, write_unbounded unbounded,
    allowed, if_true, Nat.add_sub_cancel_left]

end WindowRun

theorem WindowDecoder.follows_ofVersion (version : Version) :
    (WindowDecoder.ofVersion version).Follows (.standard false) false := by
  refine ⟨rfl, rfl, rfl, ?_⟩
  intro extensions
  cases extensions with
  | inl interleaved => cases interleaved
  | inr checked => cases checked

/-! ## Code tables -/

namespace TableStage

theorem parseHeader_toBytes (header : FileHeader) (offset : Nat) (rest : List UInt8) :
    parseHeader ⟨offset, header.toBytes ++ rest⟩ =
      .ok (some (header, ⟨offset + header.toBytes.length, rest⟩)) := by
  simp only [parseHeader, FileHeader.reads_toBytes header _ _ (Cursor.takes_append offset _ rest)]

theorem runWindows_toDelta (table : CodeTable) : ∃ window,
    table.toDelta = .ok (FileHeader.toBytes { version := .standard, cacheSizes := none } ++ window) ∧
      ∀ offset rest, ∃ stage, runWindows (.ofDecoder (.ofVersion .standard))
          ⟨offset, window ++ rest⟩ = .ok (stage, ⟨offset + window.length, rest⟩) ∧
        stage.stored? = some table.toBytes := by
  obtain ⟨window, written, nonempty, reads⟩ := table.toDelta_accepted
  refine ⟨window, written, fun offset rest => ?_⟩
  have size := table.size_toBytes
  have limits : config.checkLength 0 table.toBytes.size = .ok () := by
    rw [size]
    exact DecoderConfig.checkLength_accepts (by decide) (by decide) (by decide)
  obtain ⟨d, -, run⟩ := @WindowRun.run_reads CodeTable.standardBytes #[] table.toBytes config
    (some CodeTable.storedSize) {} _ window (reads _ (WindowDecoder.follows_ofVersion .standard))
    nonempty (fun h => by cases h) rfl limits rfl offset rest
  have whole : #[] ++ table.toBytes = table.toBytes := Array.empty_append
  rw [whole, size] at run
  have done := run.trans (WindowRun.run_stops (.inl rfl))
  refine ⟨.windows ⟨d, table.toBytes, CodeTable.storedSize⟩, ?_, ?_⟩
  · rw [runWindows, WindowRun.ofDecoder]
    rw [Array.size_empty] at done
    rw [done]
  · rw [stored?, if_neg (Nat.lt_irrefl _)]

theorem run_toDelta {table : CodeTable} {delta : List UInt8} (h : table.toDelta = .ok delta)
    (offset : Nat) (rest : List UInt8) : ∃ stage,
      header.run ⟨offset, delta ++ rest⟩ = .ok (stage, ⟨offset + delta.length, rest⟩) ∧
        stage.stored? = some table.toBytes := by
  obtain ⟨window, written, reads⟩ := runWindows_toDelta table
  cases h.symm.trans written
  have behind := parseHeader_toBytes { version := .standard, cacheSizes := none } offset
    (window ++ rest)
  rw [List.append_assoc, TableStage.run, List.length_append, ← Nat.add_assoc]
  simp only [behind, Option.isSome_none, Bool.false_eq_true, if_false]
  exact reads _ rest

end TableStage

/-! ## File headers -/

namespace DeltaWriter

variable {w : DeltaWriter} {interleaved : Bool} {near same : Nat} {table : CodeTable}

theorem withTable_ok (h : withTable interleaved near same table = .ok w) :
    ∃ sizes : CacheSizes, table.validate sizes.maxMode = .ok () ∧
      w = make interleaved true table sizes := by
  simp only [withTable] at h
  split at h
  · cases h
  · next sizes _ =>
    split at h
    · cases h
    · next valid =>
      cases h
      exact ⟨sizes, valid, rfl⟩

theorem withTable_accepted {sizes : CacheSizes} (valid : table.validate sizes.maxMode = .ok ()) :
    withTable interleaved sizes.near sizes.same table = .ok (make interleaved true table sizes) := by
  have checked : CacheSizes.check sizes.near sizes.same = .ok sizes := dif_pos sizes.fits
  simp only [withTable, checked, valid]

theorem fileHeader_make {sizes : CacheSizes} {version : Version} {delta : List UInt8}
    (h : table.toDelta = .ok delta) :
    (make interleaved true table sizes).fileHeader version =
      .ok (FileHeader.toBytes
        { version := version, cacheSizes := some (.ofNat sizes.near, .ofNat sizes.same) } ++
          delta) := by
  have open_ : (make interleaved true table sizes).state ≠ .finished := (fun h => by cases h)
  have own : (make interleaved true table sizes).ownTable = true := rfl
  have same : (make interleaved true table sizes).table = table := rfl
  have recorded : (make interleaved true table sizes).cache.sizes = sizes := rfl
  simp only [fileHeader, if_neg open_, own, if_true, same, h, recorded]
  rfl

end DeltaWriter

namespace Session

variable {dictionary : Array UInt8} {config : DecoderConfig} {sink : Sink}

theorem run_standardHeader (version : Version) (offset : Nat) (rest : List UInt8) :
    (start dictionary config).run
        ⟨offset, FileHeader.toBytes { version := version, cacheSizes := none } ++ rest⟩ sink =
      (start dictionary config).runWindows (.ofDecoder (.ofVersion version))
        ⟨offset + (FileHeader.toBytes { version := version, cacheSizes := none }).length, rest⟩
        sink := by
  have parsed := TableStage.parseHeader_toBytes { version := version, cacheSizes := none } offset rest
  simp only [start, run, parsed, afterHeader]

theorem check_toNat (sizes : CacheSizes) :
    CacheSizes.check (UInt8.ofNat sizes.near).toNat (UInt8.ofNat sizes.same).toNat = .ok sizes := by
  have fits := sizes.fits
  have near : (UInt8.ofNat sizes.near).toNat = sizes.near := by
    rw [UInt8.toNat_ofNat', Nat.mod_eq_of_lt (by omega)]
  have same : (UInt8.ofNat sizes.same).toNat = sizes.same := by
    rw [UInt8.toNat_ofNat', Nat.mod_eq_of_lt (by omega)]
  rw [near, same, CacheSizes.check, dif_pos fits]

theorem bytes_of_check {near same : UInt8} {sizes : CacheSizes}
    (checked : CacheSizes.check near.toNat same.toNat = .ok sizes) :
    near = .ofNat sizes.near ∧ same = .ofNat sizes.same := by
  simp only [CacheSizes.check] at checked
  split at checked
  · cases checked
    exact ⟨UInt8.ofNat_toNat.symm, UInt8.ofNat_toNat.symm⟩
  · cases checked

theorem run_tableHeader {table : CodeTable} {delta : List UInt8} {sizes : CacheSizes}
    (h : table.toDelta = .ok delta) (valid : table.validate sizes.maxMode = .ok ())
    (version : Version) (offset : Nat) (rest : List UInt8) {header : List UInt8}
    (written : header = FileHeader.toBytes
      { version := version, cacheSizes := some (.ofNat sizes.near, .ofNat sizes.same) } ++ delta) :
    (start dictionary config).run ⟨offset, header ++ rest⟩ sink =
      (start dictionary config).runWindows
        (.ofDecoder ((WindowDecoder.ofVersion version).withTable table sizes))
        ⟨offset + header.length, rest⟩ sink := by
  have parsed := TableStage.parseHeader_toBytes
    { version := version, cacheSizes := some (.ofNat sizes.near, .ofNat sizes.same) } offset
    (delta ++ rest)
  have installed : install version sizes table.toBytes =
      .ok ((WindowDecoder.ofVersion version).withTable table sizes) := by
    simp only [install, CodeTable.ofBytes_toBytes]
    change (do table.validate sizes.maxMode; pure _) = _
    rw [valid]
    rfl
  subst written
  rw [List.append_assoc]
  simp only [start, run, parsed, afterHeader, check_toNat]
  obtain ⟨stage, ran, stored⟩ := TableStage.run_toDelta h (offset + (FileHeader.toBytes
    { version := version, cacheSizes := some (.ofNat sizes.near, .ofNat sizes.same) }).length) rest
  simp only [runTable, ran, stored, installed, List.length_append, Nat.add_assoc]

end Session

end DeltaCoding
