import DeltaCoding.Header.Window

/-!
# Copying within a window

The addresses of a window's COPYs run through its source segment and then through the target bytes
that the window has produced so far. A COPY may run from the segment into the target, and it may
reach bytes that it produces itself, which repeats a pattern.

`AddressSpace.copy?` copies in blocks: first what lies in the segment, then again and again as much
of the target as there is, which doubles while a pattern is repeated. It has no answer for a range
that is not there.
-/

namespace DeltaCoding

/-- What the addresses of a window refer to. The window's output starts at `windowStart` in a buffer
that holds the target of earlier windows before it. -/
structure AddressSpace where
  dictionary : Array UInt8
  segment : SourceSegment
  windowStart : Nat

namespace AddressSpace

/-- Appends `count` bytes of `source` from index `start` on, if it has them. -/
@[inline]
def appendRange? (target source : Array UInt8) (start count : Nat) : Option (Array UInt8) :=
  if start + count ≤ source.size then some (target ++ source.extract start (start + count))
  else none

/-- Appends `count` bytes of the source segment from `address` on, if they are there. -/
def copySegment? (space : AddressSpace) (target : Array UInt8) (address count : Nat) :
    Option (Array UInt8) :=
  match space.segment with
  | .none => some target
  | .dictionary position _ => appendRange? target space.dictionary (position + address) count
  | .target position _ => appendRange? target target (position + address) count

/-- Appends `count` bytes of the buffer from index `start` on, the bytes just appended included.
There is no way to go on from an index that the buffer does not have. -/
def copyTarget? (target : Array UInt8) (start count : Nat) : Option (Array UInt8) :=
  if count = 0 then some target
  else if start < target.size then
    let block := min count (target.size - start)
    copyTarget? (target ++ target.extract start (start + block)) (start + block) (count - block)
  else none
termination_by count
decreasing_by omega

/-- Appends `size` bytes from `address` on. There is no answer where a byte to be read is not there. -/
def copy? (space : AddressSpace) (target : Array UInt8) (address size : Nat) :
    Option (Array UInt8) := do
  let segmentLength := space.segment.length
  let count := min size (segmentLength - address)
  let target ←
    if address < segmentLength then space.copySegment? target address count else some target
  copyTarget? target (space.windowStart + (address + count - segmentLength)) (size - count)

end AddressSpace

end DeltaCoding
