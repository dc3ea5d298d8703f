/-!
# Adler-32

The checksum keeps two sums modulo 65521: `low`, one more than the sum of the bytes, and `high`, the
sum of all the values that `low` takes. Both are reduced once per block of 5552 bytes, the longest
block whose sums are sure to fit 32 bits.
-/

namespace DeltaCoding.Checksum

def modulus : UInt32 := 65521

def blockLength : Nat := 5552

/-- The running sums. -/
structure Sums where
  low : UInt32
  high : UInt32
deriving DecidableEq

namespace Sums

def empty : Sums := ⟨1, 0⟩

def add (s : Sums) (byte : UInt8) : Sums :=
  let low := s.low + byte.toUInt32
  ⟨low, s.high + low⟩

def reduce (s : Sums) : Sums :=
  ⟨s.low % modulus, s.high % modulus⟩

/-- Each block leaves fewer bytes. -/
theorem length_drop_blockLength {bytes : List UInt8} (some : ¬ bytes.isEmpty) :
    (bytes.drop blockLength).length < bytes.length := by
  have nonempty : bytes ≠ [] := by simpa [List.isEmpty_iff] using some
  have : 0 < bytes.length := List.length_pos_iff.2 nonempty
  rw [List.length_drop, blockLength]
  omega

def addBlocks (s : Sums) (bytes : List UInt8) : Sums :=
  if bytes.isEmpty then s
  else addBlocks ((bytes.take blockLength).foldl add s).reduce (bytes.drop blockLength)
termination_by bytes.length
decreasing_by exact length_drop_blockLength ‹_›

def word (s : Sums) : UInt32 :=
  (s.high <<< 16) ||| s.low

end Sums

/-- The Adler-32 checksum. -/
def adler32 (bytes : List UInt8) : UInt32 :=
  (Sums.empty.addBlocks bytes).word

end DeltaCoding.Checksum
