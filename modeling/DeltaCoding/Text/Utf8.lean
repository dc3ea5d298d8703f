/-!
# UTF-8 in byte strings

A byte string may hold text, other bytes, or text that is cut in the middle of a character.
`encodedLength?` says how long the character at the front of a byte string is, if there is one: its
form is the shortest for its code point, and its code point is no surrogate and not above U+10FFFF.
-/

namespace DeltaCoding.Text.Utf8

def isContinuation (byte : UInt8) : Bool :=
  0x80 ≤ byte && byte ≤ 0xBF

/-- The least and largest second byte behind a first byte of a character of two bytes or more, and
the number of bytes that follow the second. -/
def secondByte? (first : UInt8) : Option (UInt8 × UInt8 × Nat) :=
  if 0xC2 ≤ first && first ≤ 0xDF then some (0x80, 0xBF, 0)
  else if first = 0xE0 then some (0xA0, 0xBF, 1)
  else if first = 0xED then some (0x80, 0x9F, 1)
  else if 0xE1 ≤ first && first ≤ 0xEF then some (0x80, 0xBF, 1)
  else if first = 0xF0 then some (0x90, 0xBF, 2)
  else if 0xF1 ≤ first && first ≤ 0xF3 then some (0x80, 0xBF, 2)
  else if first = 0xF4 then some (0x80, 0x8F, 2)
  else none

def encodedLength? : List UInt8 → Option Nat
  | [] => none
  | first :: rest =>
    if first < 0x80 then some 1
    else
      match secondByte? first, rest with
      | some (low, high, more), second :: rest =>
        let tail := rest.take more
        if low ≤ second && second ≤ high && tail.length == more && tail.all isContinuation then
          some (2 + more)
        else none
      | _, _ => none

end DeltaCoding.Text.Utf8
