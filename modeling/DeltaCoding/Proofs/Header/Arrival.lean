import DeltaCoding.Proofs.Header.File
import DeltaCoding.Proofs.Header.RoundTrip

namespace DeltaCoding

variable {offset : Nat} {part missing : List UInt8}

namespace WindowHeader

variable {header : WindowHeader} {context : Context} {check : Nat → Except FormatError Unit}

theorem parse_append (fits : header.Fits context check) (fields : header.Fields)
    (extensions : header.sections.checksum.isSome = true → context.version.hasExtensions = true)
    (offset : Nat) (suffix : List UInt8) :
    ∃ s, parse context check (.ofCursor ⟨offset, header.toBytes ++ suffix⟩) = (.ok header, s) ∧
      s.cursor = ⟨offset + header.toBytes.length, suffix⟩ :=
  parse_toBytes fits fields extensions (Cursor.takes_append offset _ suffix)

theorem parse_part (fits : header.Fits context check) (fields : header.Fields)
    (extensions : header.sections.checksum.isSome = true → context.version.hasExtensions = true)
    (split : header.toBytes = part ++ missing) (something : missing ≠ []) :
    (parse context check (.ofCursor ⟨offset, part⟩)).1 = .error .needMoreData := by
  obtain ⟨s, whole, ends⟩ := parse_append fits fields extensions offset []
  rw [List.append_nil, split] at whole
  exact (stable_parse context check).waits (s := .ofCursor ⟨offset, part⟩) whole (by rw [ends])
    something

end WindowHeader

/-- Written headers of windows and of files are read back, and the reader stops behind them. On the
first bytes of a header, however many there are short of all, it asks for more. -/
theorem headers_arrive (offset : Nat) :
    (∀ (header : WindowHeader) (context : WindowHeader.Context)
        (check : Nat → Except FormatError Unit), header.Fits context check → header.Fields →
        (header.sections.checksum.isSome = true → context.version.hasExtensions = true) →
      (∀ suffix, ∃ s,
        WindowHeader.parse context check (.ofCursor ⟨offset, header.toBytes ++ suffix⟩) =
            (.ok header, s) ∧
          s.cursor = ⟨offset + header.toBytes.length, suffix⟩) ∧
      ∀ part missing, header.toBytes = part ++ missing → missing ≠ [] →
        (WindowHeader.parse context check (.ofCursor ⟨offset, part⟩)).1 = .error .needMoreData) ∧
    ∀ header : FileHeader,
      (∀ suffix, FileHeader.parse ⟨offset, header.toBytes ++ suffix⟩ =
        .ok (header, ⟨offset + header.toBytes.length, suffix⟩)) ∧
      ∀ part missing, header.toBytes = part ++ missing → missing ≠ [] →
        FileHeader.parse ⟨offset, part⟩ = .error .needMoreData := by
  refine ⟨fun header context check fits fields extensions => ⟨fun suffix => ?_,
    fun part missing split something => ?_⟩, fun header => ⟨fun suffix => ?_,
    fun part missing split something => ?_⟩⟩
  · exact WindowHeader.parse_append fits fields extensions offset suffix
  · exact WindowHeader.parse_part fits fields extensions split something
  · exact FileHeader.reads_toBytes header _ _ (Cursor.takes_append offset _ suffix)
  · exact (FileHeader.reads_toBytes header).waits FileHeader.local_parse split something offset

/-- The cut is within the checksum, which is the last field. -/
theorem headers_arrive_checksum :
    let header : WindowHeader :=
      ⟨.dictionary 130 300, 128, ⟨127, 128, 16384, some 0xFFFFFFFF⟩⟩
    let context : WindowHeader.Context := ⟨.sdch, 430, 0, false⟩
    let check : Nat → Except FormatError Unit := fun _ => .ok ()
    header.Fits context check ∧ header.Fields ∧
      (header.sections.checksum.isSome = true → context.version.hasExtensions = true) ∧
      (∃ s, WindowHeader.parse context check (.ofCursor ⟨7, header.toBytes ++ [1, 2]⟩) =
          (.ok header, s) ∧ s.cursor = ⟨29, [1, 2]⟩) ∧
      (WindowHeader.parse context check (.ofCursor ⟨7, header.toBytes.take 19⟩)).1 =
        .error .needMoreData := by
  intro header context check
  have fits : header.Fits context check := ⟨Nat.le_refl 430, by decide, rfl⟩
  have fields : header.Fields := by
    refine ⟨⟨by decide, by decide⟩, by decide, by decide +kernel, ?_⟩
    rintro _ ⟨⟩
    exact Nat.le_refl _
  have bytes : header.toBytes.length = 22 := by decide +kernel
  obtain ⟨whole, parts⟩ := (headers_arrive 7).1 header context check fits fields fun _ => rfl
  refine ⟨fits, fields, fun _ => rfl, ?_, parts _ (header.toBytes.drop 19)
    (List.take_append_drop 19 _).symm ?_⟩
  · have read := whole [1, 2]
    rwa [bytes] at read
  · intro none
    have length := List.length_drop (i := 19) (l := header.toBytes)
    rw [none, bytes] at length
    cases length

end DeltaCoding
