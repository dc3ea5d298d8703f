import DeltaCoding.Writer.Delta

/-!
# Code tables as deltas

A delta that uses a code table of its own carries that table in its file header, as a delta against
the standard table's stored form. Both stored forms have the same length, and most columns differ
little, so stretches that agree in place are copied and all else is added.
-/

namespace DeltaCoding

namespace TableDelta

def minCopy : Nat := 4

/-- The number of places from `pos` on at which both arrays hold the same bytes. -/
def agreement (a b : Array UInt8) (pos : Nat) : Nat :=
  if h : pos < a.size ∧ pos < b.size then
    if a[pos] = b[pos] then agreement a b (pos + 1) + 1 else 0
  else 0
termination_by a.size - pos

def slice (bytes : Array UInt8) (start stop : Nat) : List UInt8 :=
  (bytes.extract start stop).toList

/-- The edits that make `target` from `pos` on. The bytes from `literalStart` to `pos` have still to
be added. -/
def editsFrom (source target : Array UInt8) (literalStart pos : Nat) : List Edit :=
  if pos < target.size then
    let same := agreement target source pos
    if same ≥ minCopy then
      .add (slice target literalStart pos) :: .copy pos same ::
        editsFrom source target (pos + same) (pos + same)
    else editsFrom source target literalStart (pos + max same 1)
  else [.add (slice target literalStart target.size)]
termination_by target.size - pos
decreasing_by
  · simp only [minCopy] at *
    omega
  · omega

def edits (source target : Array UInt8) : List Edit :=
  editsFrom source target 0 0

/-- A delta of one window that makes `target` from a source of the same length. -/
def delta (source target : Array UInt8) : Except EncodeError (List UInt8) := do
  let header : FileHeader := { version := .standard, cacheSizes := none }
  let (opened, w) := (DeltaWriter.standard false).openWindow source.size
  opened
  let (written, w) := w.edits (edits source target)
  written
  let (window, w) := w.closeWindow
  let window ← window
  w.finish.1
  pure (header.toBytes ++ window)

end TableDelta

namespace CodeTable

def toDelta (table : CodeTable) : Except EncodeError (List UInt8) :=
  TableDelta.delta standardBytes table.toBytes

end CodeTable

namespace DeltaWriter

/-- The start of a delta: the file header, and the code table if it is the writer's own. -/
def fileHeader (w : DeltaWriter) (version : Version) : Except EncodeError (List UInt8) :=
  if w.state = .finished then .error (.usage .writerFinished)
  else if w.ownTable then do
    let sizes := w.cache.sizes
    let header : FileHeader :=
      { version := version, cacheSizes := some (.ofNat sizes.near, .ofNat sizes.same) }
    let table ← w.table.toDelta
    pure (header.toBytes ++ table)
  else .ok (FileHeader.toBytes { version := version, cacheSizes := none })

end DeltaWriter

end DeltaCoding
