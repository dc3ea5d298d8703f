namespace DeltaCoding

/-- Where decoded bytes go. -/
structure Sink where
  /-- The bytes written so far. -/
  written : Array UInt8 := #[]
  /-- The most bytes that the sink takes; `none` for any number. -/
  capacity : Option Nat := none
deriving Inhabited

namespace Sink

def hasRoom (sink : Sink) (count : Nat) : Bool :=
  match sink.capacity with
  | none => true
  | some capacity => sink.written.size + count ≤ capacity

/-- Writes the bytes as a whole or not at all, and says whether it did. -/
def write (sink : Sink) (bytes : Array UInt8) : Bool × Sink :=
  if sink.hasRoom bytes.size then (true, { sink with written := sink.written ++ bytes })
  else (false, sink)

end Sink

end DeltaCoding
