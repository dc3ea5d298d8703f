import DeltaCoding.Writer.Delta

/-!
# Windows in outline

In the standard layout a writer does nothing with literal bytes but put them into a section of their
own. An `OutlineWriter` is told only how many there are. It writes everything else and hands out a
window in two parts, and the literal bytes belong between the two. That way a window can be as long as
the fields of its header allow without being held in memory.
-/

namespace DeltaCoding

/-- An edit whose literal bytes are kept elsewhere. -/
inductive OutlineEdit where
  | add (size : Nat)
  | copy (address size : Nat)
  | run (size : Nat)

namespace OutlineEdit

def size : OutlineEdit → Nat
  | add size => size
  | copy _ size => size
  | run size => size

end OutlineEdit

namespace Edit

/-- All of an edit but its literal bytes. -/
def outline : Edit → OutlineEdit
  | add bytes => .add bytes.length
  | copy address size => .copy address size
  | run size _ => .run size

end Edit

/-- A writer of the standard layout that only counts its literal bytes. -/
structure OutlineWriter where
  /-- All else. Its data section stays empty. -/
  base : DeltaWriter
  /-- The length that the data section would have. -/
  dataLength : Nat

namespace DeltaWriter

def withoutData (w : DeltaWriter) : DeltaWriter :=
  { w with data := #[] }

/-- The same writer as far as it does not depend on what its literal bytes are. -/
def outline (w : DeltaWriter) : OutlineWriter :=
  ⟨w.withoutData, w.data.size⟩

end DeltaWriter

namespace OutlineWriter

abbrev Call := Except EncodeError Unit × OutlineWriter

/-- What has become of a call that has nothing to do with literal bytes. -/
def after (o : OutlineWriter) (call : DeltaWriter.Call) : Call :=
  call.map id fun base => { o with base }

/-- A window that is opened has no literal bytes yet. -/
def opened (o : OutlineWriter) (call : DeltaWriter.Call) : Call :=
  match call with
  | (.ok (), base) => (.ok (), ⟨base, 0⟩)
  | (.error error, base) => (.error error, { o with base })

def openWindow (o : OutlineWriter) (size : Nat) : Call :=
  o.opened (o.base.openWindow size)

def openTargetWindow (o : OutlineWriter) (position length : Nat) : Call :=
  o.opened (o.base.openTargetWindow position length)

/-- Writes an edit with `count` literal bytes, which are there as soon as there is an opcode for it. -/
def writeLiteral (o : OutlineWriter) (instruction : UInt8) (size count : Nat) : Call :=
  let chosen := (o.base.choose instruction size 0).isSome
  (o.base.write instruction size 0 id).map id fun base =>
    ⟨base, if chosen then o.dataLength + count else o.dataLength⟩

def writeAdd (o : OutlineWriter) (size : Nat) : Call :=
  if size > maxField then (.error (.tooLarge .addSize size), o)
  else o.writeLiteral InstructionType.add size size

/-- Writes an edit. An edit that makes no bytes is passed over. -/
def edit (o : OutlineWriter) (e : OutlineEdit) : Call :=
  match o.base.state with
  | .writing =>
    if e.size = 0 then (.ok (), o)
    else
      match e with
      | .add size => o.writeAdd size
      | .copy address size => o.after (o.base.writeCopy address size)
      | .run size => o.writeLiteral InstructionType.run size 1
  | .idle => (.error (.usage .instructionBeforeInit), o)
  | .finished => (.error (.usage .instructionAfterFinish), o)

def edits (o : OutlineWriter) : List OutlineEdit → Call
  | [] => (.ok (), o)
  | e :: rest =>
    match o.edit e with
    | (.ok (), o) => edits o rest
    | refused => refused

def setChecksum (o : OutlineWriter) (checksum : Nat) : OutlineWriter :=
  { o with base := o.base.setChecksum checksum }

/-- The two parts of a window, in front of its data section and behind it. -/
abbrev Parts := List UInt8 × List UInt8

/-- The parts of the finished window; `none` for a window with nothing in it, which is left out. -/
def windowParts (o : OutlineWriter) : Except EncodeError (Option Parts) :=
  if o.base.instructions.isEmpty && o.base.checksum.isNone then .ok none
  else do
    let data ← DeltaWriter.checkLength .dataSectionLength o.dataLength
    let header ← o.base.windowHeader
    let header := { header with sections := { header.sections with data } }
    pure (some (header.toBytes, o.base.instructions.toList ++ o.base.addresses.toList))

/-- Closes the window and hands it out. The window is closed even if it is refused. -/
def closeWindow (o : OutlineWriter) : Except EncodeError (Option Parts) × OutlineWriter :=
  match o.base.state with
  | .writing => (o.windowParts, { o with base := { o.base with state := .idle } })
  | .idle => (.error (.usage .instructionBeforeInit), o)
  | .finished => (.error (.usage .instructionAfterFinish), o)

def finish (o : OutlineWriter) : Call :=
  o.after o.base.finish

end OutlineWriter

end DeltaCoding
