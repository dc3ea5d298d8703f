import DeltaCoding.Header.File
import DeltaCoding.Proofs.Parsing

namespace DeltaCoding.FileHeader

theorem local_parseMagic (index : Nat) (bytes : List UInt8) : (parseMagic index bytes).Local := by
  induction bytes generalizing index with
  | nil => exact .pure _
  | cons expected rest ih => exact Parser.local_byte.bind fun _ => .ite (ih _) (.malformed _)

theorem local_parseVersion : parseVersion.Local := by
  apply Parser.local_byte.bind
  intro byte
  split
  · exact .pure _
  · exact .malformed _

theorem local_parseCacheSizes : parseCacheSizes.Local :=
  Parser.local_byte.bind fun _ => .ite (.malformed _) <| .ite
    (Parser.local_byte.bind fun _ => Parser.local_byte.bind fun _ => .pure _) (.pure _)

theorem local_parse : parse.Local :=
  (local_parseMagic _ _).bind fun _ => local_parseVersion.bind fun _ =>
    local_parseCacheSizes.bind fun _ => .pure _

theorem answers_parseMagic (index : Nat) (bytes : List UInt8) :
    (parseMagic index bytes).Answers := by
  induction bytes generalizing index with
  | nil => exact .pure _
  | cons expected rest ih => exact Parser.answers_byte.bind fun _ => .ite (ih _) (.malformed _)

theorem answers_parseVersion : parseVersion.Answers := by
  apply Parser.answers_byte.bind
  intro byte
  split
  · exact .pure _
  · exact .malformed _

theorem answers_parseCacheSizes : parseCacheSizes.Answers :=
  Parser.answers_byte.bind fun _ => .ite (.malformed _) <| .ite
    (Parser.answers_byte.bind fun _ => Parser.answers_byte.bind fun _ => .pure _) (.pure _)

theorem answers_parse : parse.Answers :=
  (answers_parseMagic _ _).bind fun _ => answers_parseVersion.bind fun _ =>
    answers_parseCacheSizes.bind fun _ => .pure _

/-! ## Round trip -/

theorem reads_magic (index : Nat) (bytes : List UInt8) :
    (parseMagic index bytes).Reads bytes () := by
  induction bytes generalizing index with
  | nil => exact .pure _
  | cons expected rest ih =>
    refine (Parser.reads_byte expected).bind ?_
    rw [if_pos rfl]
    exact ih _

theorem reads_version (version : Version) : parseVersion.Reads [version.toByte] version := by
  apply (Parser.reads_byte _).bind_pure
  intro c
  cases version <;> rfl

theorem reads_cacheSizes (sizes : Option (UInt8 × UInt8)) :
    parseCacheSizes.Reads (match sizes with
      | some (near, same) => [codeTableBit, near, same]
      | none => [0]) sizes := by
  cases sizes with
  | none => exact (Parser.reads_byte 0).bind_pure fun c => rfl
  | some p =>
    obtain ⟨near, same⟩ := p
    refine Parser.Reads.bind (Parser.reads_byte codeTableBit)
      (show Parser.Reads _ [near, same] _ from ?_)
    rw [if_neg (by decide), if_pos (by decide)]
    exact (Parser.reads_byte near).bind ((Parser.reads_byte same).bind_pure fun c => rfl)

theorem reads_toBytes (header : FileHeader) : parse.Reads header.toBytes header := by
  refine (reads_magic 0 magic).bind ((reads_version header.version).bind ?_)
  exact (reads_cacheSizes header.cacheSizes).bind_pure fun c => rfl

end DeltaCoding.FileHeader
