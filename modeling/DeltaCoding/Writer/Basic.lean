import DeltaCoding.Writer.Json
import DeltaCoding.Writer.TableDelta

namespace DeltaCoding

/-- A writer of either format. -/
inductive Writer where
  | delta (w : DeltaWriter)
  | json (w : JsonWriter)

namespace Writer

abbrev Call (α : Type) := Except EncodeError α × Writer

def fileHeader (writer : Writer) (version : Version) : Except EncodeError (List UInt8) :=
  match writer with
  | delta w => w.fileHeader version
  | json _ => .ok JsonWriter.fileHeader

/-- Opens a window whose source segment is the first `size` bytes of the dictionary. -/
def openWindow (writer : Writer) (size : Nat) : Call Unit :=
  match writer with
  | delta w => (w.openWindow size).map id delta
  | json w => w.openWindow.map id json

/-- Opens a window whose source segment is a part of the target of earlier windows. -/
def openTargetWindow (writer : Writer) (position length : Nat) : Call Unit :=
  match writer with
  | delta w => (w.openTargetWindow position length).map id delta
  | json w => w.openWindow.map id json

def edit (writer : Writer) (e : Edit) : Call Unit :=
  match writer with
  | delta w => (w.edit e).map id delta
  | json w => (w.edit e).map id json

def edits (writer : Writer) : List Edit → Call Unit
  | [] => (.ok (), writer)
  | e :: rest =>
    match writer.edit e with
    | (.ok (), writer) => edits writer rest
    | refused => refused

/-- Gives the open window a checksum. JSON has no place for it. -/
def setChecksum (writer : Writer) (checksum : Nat) : Writer :=
  match writer with
  | delta w => delta (w.setChecksum checksum)
  | json w => json w

def closeWindow (writer : Writer) : Call (List UInt8) :=
  match writer with
  | delta w => w.closeWindow.map id delta
  | json w => w.closeWindow.map id json

def finish (writer : Writer) : Call (List UInt8) :=
  match writer with
  | delta w => w.finish.map (·.map fun _ => []) delta
  | json w => w.finish.map id json

end Writer

end DeltaCoding
