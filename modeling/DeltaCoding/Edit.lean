/-!
# Edits

An edit says how the next stretch of a target is made: from literal bytes, by repeating one byte, or
by copying. The addresses of copies run through a source and then through the target so far, and a
copy may reach bytes that it produces itself.

`Edit.replay` carries out edits one byte at a time. It is the plain meaning of edits; encoders and
decoders get to the same target by other ways.
-/

namespace DeltaCoding

/-- How the next stretch of a target is made. -/
inductive Edit where
  /-- Literal bytes. There may be none. -/
  | add (bytes : List UInt8)
  /-- `size` bytes from `address` on. -/
  | copy (address size : Nat)
  /-- One byte, `size` times. -/
  | run (size : Nat) (byte : UInt8)
deriving DecidableEq

namespace Edit

def size : Edit → Nat
  | add bytes => bytes.length
  | copy _ size => size
  | run size _ => size

/-- The byte at an address of the source or, behind it, of the target so far. -/
def byteAt (source target : Array UInt8) (address : Nat) : UInt8 :=
  if address < source.size then source[address]?.getD 0
  else target[address - source.size]?.getD 0

/-- Appends the bytes at `count` addresses from `address` on, one after the other. -/
def replayCopy (source target : Array UInt8) (address : Nat) : (count : Nat) → Array UInt8
  | 0 => target
  | count + 1 => replayCopy source (target.push (byteAt source target address)) (address + 1) count

/-- Carries out one edit behind the target so far. -/
def replay (source target : Array UInt8) : Edit → Array UInt8
  | add bytes => bytes.foldl Array.push target
  | copy address size => replayCopy source target address size
  | run size byte => (List.replicate size byte).foldl Array.push target

def replayAll (source : Array UInt8) (edits : List Edit) : Array UInt8 :=
  edits.foldl (replay source) #[]

end Edit

end DeltaCoding
