import DeltaCoding.Edit
import DeltaCoding.Error
import DeltaCoding.Text.Hex
import DeltaCoding.Text.Utf8

/-!
# Deltas as JSON

For reading by people and tools, the edits of all windows can be written as one JSON array. An ADD
or a RUN is a string of the bytes that it makes, a COPY two numbers, its address and its size.

Characters in UTF-8 stand for themselves, with JSON's own escapes. A byte that belongs to no
character, such as one half of a character that is cut in two, is written `\u00` and its two
hexadecimal digits.
-/

namespace DeltaCoding

namespace JsonText

def utf8 (text : String) : List UInt8 :=
  text.toUTF8.toList

def escapedByte (byte : UInt8) : List UInt8 :=
  utf8 ("\\u" ++ Text.hex 4 byte.toNat)

/-- Only what has to be escaped is, in the shortest form that JSON has for it. The escapes are taken from
the documentation of `serde_json`, whose code is not modelled. -/
def escapedAscii (byte : UInt8) : List UInt8 :=
  if byte = 0x22 then utf8 "\\\""
  else if byte = 0x5C then utf8 "\\\\"
  else if byte = 0x08 then utf8 "\\b"
  else if byte = 0x09 then utf8 "\\t"
  else if byte = 0x0A then utf8 "\\n"
  else if byte = 0x0C then utf8 "\\f"
  else if byte = 0x0D then utf8 "\\r"
  else if byte < 0x20 then escapedByte byte
  else [byte]

/-- The character at the front of `byte :: rest` as it stands in a string, and what is behind it. -/
def escapeFront (byte : UInt8) (rest : List UInt8) : List UInt8 × List UInt8 :=
  match Text.Utf8.encodedLength? (byte :: rest) with
  | none => (escapedByte byte, rest)
  | some 1 => (escapedAscii byte, rest)
  | some length => (byte :: rest.take (length - 1), rest.drop (length - 1))

theorem length_escapeFront_le (byte : UInt8) (rest : List UInt8) :
    (escapeFront byte rest).2.length ≤ rest.length := by
  unfold escapeFront
  split
  · exact Nat.le_refl _
  · exact Nat.le_refl _
  · simp

def escapeOnto (text : Array UInt8) : List UInt8 → Array UInt8
  | [] => text
  | byte :: rest =>
    let front := escapeFront byte rest
    escapeOnto (text ++ front.1) front.2
termination_by bytes => bytes.length
decreasing_by
  have := length_escapeFront_le byte rest
  simp only [List.length_cons]
  omega

def quoted (bytes : List UInt8) : List UInt8 :=
  ((escapeOnto #[0x22] bytes).push 0x22).toList

end JsonText

/-- Writes edits as a JSON array. -/
structure JsonWriter where
  /-- What the open window has added to the array. -/
  window : Array UInt8 := #[]
  inWindow : Bool := false
  finished : Bool := false
  /-- The array has an item already, in this window or an earlier one. -/
  hasItems : Bool := false
deriving Inhabited

namespace JsonWriter

abbrev Call := Except EncodeError Unit × JsonWriter

def fileHeader : List UInt8 := JsonText.utf8 "["

def openWindow (w : JsonWriter) : Call :=
  if w.finished then (.error (.usage .writerFinished), w)
  else if w.inWindow then (.error (.usage .windowAlreadyOpen), w)
  else (.ok (), { w with inWindow := true })

def putItem (w : JsonWriter) (item : List UInt8) : JsonWriter :=
  let comma := if w.hasItems then JsonText.utf8 "," else []
  { w with window := w.window ++ comma ++ item, hasItems := true }

def item : Edit → List UInt8
  | .add bytes => JsonText.quoted bytes
  | .copy address size => JsonText.utf8 s!"{address},{size}"
  | .run size byte => JsonText.quoted (List.replicate size byte)

/-- Writes an edit. An edit that makes no bytes is passed over. -/
def edit (w : JsonWriter) (e : Edit) : Call :=
  if w.inWindow then
    (.ok (), if e.size = 0 then w else w.putItem (item e))
  else (.error (.usage .instructionOutsideWindow), w)

def closeWindow (w : JsonWriter) : Except EncodeError (List UInt8) × JsonWriter :=
  if w.inWindow then (.ok w.window.toList, { w with window := #[], inWindow := false })
  else (.error (.usage .instructionOutsideWindow), w)

def finish (w : JsonWriter) : Except EncodeError (List UInt8) × JsonWriter :=
  if w.inWindow then (.error (.usage .finishInsideWindow), w)
  else (.ok (JsonText.utf8 "]"), { w with finished := true })

end JsonWriter

end DeltaCoding
