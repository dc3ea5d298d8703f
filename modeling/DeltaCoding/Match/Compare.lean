/-!
# Comparing stretches of bytes

How far two stretches of bytes agree, forward from two places or backward from them. Going forward,
eight bytes at a time are compared as one word, least significant byte first; the lowest bit in
which two words differ tells the first byte in which they differ.
-/

namespace DeltaCoding.Match

/-- Eight bytes from index `i` on as a word, least significant byte first. Bytes behind the end of
the array count as zero. -/
def wordAt (bytes : Array UInt8) (i : Nat) : UInt64 :=
  let byte (k : Nat) : UInt64 := (bytes[i + k]?.getD 0).toUInt64
  byte 0 ||| byte 1 <<< 8 ||| byte 2 <<< 16 ||| byte 3 <<< 24 |||
    byte 4 <<< 32 ||| byte 5 <<< 40 ||| byte 6 <<< 48 ||| byte 7 <<< 56

/-- The number of zero bits below the lowest one bit, at most `bits`. -/
def trailingZeros (word : UInt64) : (bits : Nat) → Nat
  | 0 => 0
  | bits + 1 => if word &&& 1 = 1 then 0 else trailingZeros (word >>> 1) bits + 1

/-- Goes on byte by byte: `matched` bytes agree already, and no more than `limit` are compared. -/
def forwardBytes (a b : Array UInt8) (i j limit matched : Nat) : Nat :=
  if matched < limit then
    if a[i + matched]? = b[j + matched]? then forwardBytes a b i j limit (matched + 1) else matched
  else matched
termination_by limit - matched

def forwardWords (a b : Array UInt8) (i j limit matched : Nat) : Nat :=
  if matched + 8 ≤ limit then
    let difference := wordAt a (i + matched) ^^^ wordAt b (j + matched)
    -- The first byte that differs is the lowest byte of the difference that is not zero.
    if difference = 0 then forwardWords a b i j limit (matched + 8)
    else matched + trailingZeros difference 64 / 8
  else forwardBytes a b i j limit matched
termination_by limit - matched

/-- The number of bytes that agree from index `i` of `a` and from index `j` of `b` on, at most
`limit`. -/
def forward (a b : Array UInt8) (i j limit : Nat) : Nat :=
  forwardWords a b i j (min limit (min (a.size - i) (b.size - j))) 0

/-- Goes on backward byte by byte: `matched` bytes agree already, and no more than `limit` are
compared. -/
def backwardBytes (a b : Array UInt8) (i j limit matched : Nat) : Nat :=
  if matched < limit then
    if a[i - 1 - matched]? = b[j - 1 - matched]? then backwardBytes a b i j limit (matched + 1)
    else matched
  else matched
termination_by limit - matched

/-- The number of bytes that agree before index `i` of `a` and before index `j` of `b`, at most
`limit`. -/
def backward (a b : Array UInt8) (i j limit : Nat) : Nat :=
  backwardBytes a b i j (min limit (min i j)) 0

/-- The number of times that `byte` stands in a row from index `i` on, at most `limit` times, if
`counted` of them are known. -/
def runFrom (bytes : Array UInt8) (byte : UInt8) (i limit counted : Nat) : Nat :=
  if counted < limit then
    if bytes[i + counted]? = some byte then runFrom bytes byte i limit (counted + 1) else counted
  else counted
termination_by limit - counted

/-- The number of times that `byte` stands in a row from index `i` on, at most `limit` times. -/
def runLength (bytes : Array UInt8) (byte : UInt8) (i limit : Nat) : Nat :=
  runFrom bytes byte i limit 0

/-! ## Byte by byte -/

/-- The number of bytes that agree at the front of both lists, at most `limit`. -/
def agreement : (a b : List UInt8) → (limit : Nat) → Nat
  | x :: a, y :: b, limit + 1 => if x = y then agreement a b limit + 1 else 0
  | _, _, _ => 0

end DeltaCoding.Match
