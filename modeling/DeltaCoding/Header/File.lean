import DeltaCoding.Cursor

/-!
# The file header

A delta starts with three magic bytes, a version byte and an indicator byte. The indicator announces
secondary compression, which is not supported, or a code table; with a code table the two cache
sizes follow, and then the table itself as a delta of its own.
-/

namespace DeltaCoding

/-- The variant of the format. -/
inductive Version where
  /-- The plain format. -/
  | standard
  /-- The variant with window checksums and interleaved windows. -/
  | sdch
deriving DecidableEq, Inhabited

namespace Version

def toByte : Version → UInt8
  | standard => 0x00
  | sdch => 0x53

def ofByte? (byte : UInt8) : Option Version :=
  if byte = standard.toByte then some standard
  else if byte = sdch.toByte then some sdch
  else none

def hasExtensions (version : Version) : Bool :=
  version == sdch

end Version

/-- The file header, without the code table that may follow. -/
structure FileHeader where
  version : Version
  /-- The numbers of NEAR and SAME modes of the delta's own code table, if it has one. -/
  cacheSizes : Option (UInt8 × UInt8)
deriving DecidableEq

namespace FileHeader

def magic : List UInt8 := [0xD6, 0xC3, 0xC4]

def compressionBit : UInt8 := 1

def codeTableBit : UInt8 := 2

/-- Reads the expected bytes, of which the first is number `index` of the header. -/
def parseMagic (index : Nat) : List UInt8 → Parser Unit
  | [] => pure ()
  | expected :: rest => do
    let found ← Parser.byte
    if found = expected then parseMagic (index + 1) rest
    else Parser.malformed (.badMagic index found)

def parseVersion : Parser Version := do
  let byte ← Parser.byte
  match Version.ofByte? byte with
  | some version => pure version
  | none => Parser.malformed (.unsupportedVersion byte)

/-- Reads the indicator and the cache sizes that it announces. Its other bits mean nothing. -/
def parseCacheSizes : Parser (Option (UInt8 × UInt8)) := do
  let indicator ← Parser.byte
  if indicator &&& compressionBit ≠ 0 then Parser.malformed .secondaryCompression
  else if indicator &&& codeTableBit ≠ 0 then do
    let near ← Parser.byte
    let same ← Parser.byte
    pure (some (near, same))
  else pure none

/-- Reads a file header. A wrong byte is found as soon as it is there. -/
def parse : Parser FileHeader := do
  parseMagic 0 magic
  let version ← parseVersion
  let cacheSizes ← parseCacheSizes
  pure { version, cacheSizes }

def toBytes (header : FileHeader) : List UInt8 :=
  magic ++ header.version.toByte ::
    match header.cacheSizes with
    | some (near, same) => [codeTableBit, near, same]
    | none => [0]

def errorPosition : FormatError → Nat
  | .badMagic index _ => index
  | .unsupportedVersion _ => 3
  | _ => 4

end FileHeader

end DeltaCoding
