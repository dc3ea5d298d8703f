/-!
# A rolling hash

The hash of a window of bytes is the value of the polynomial with these coefficients at 257, modulo
`2 ^ 23`. It can be rolled from one window to the next: the oldest byte's share is taken off, the
rest moves up by one power, and the newest byte is added. Arithmetic modulo `2 ^ 32`, followed by a
mask, is exact for this modulus, subtraction included.
-/

namespace DeltaCoding

/-- The number of bytes in a block of a dictionary, and in the windows that matches are found by. -/
def blockSize : Nat := 16

/-- Hashes windows of a fixed width. -/
structure RollingHash where
  width : Nat
  /-- The power of the base that the oldest byte of a window is multiplied with. -/
  oldestFactor : UInt32
deriving Inhabited

namespace RollingHash

def base : UInt32 := 257

def mask : UInt32 := 0x7FFFFF

def power : (exponent : Nat) → UInt32
  | 0 => 1
  | exponent + 1 => (power exponent * base) &&& mask

def ofWidth (width : Nat) : RollingHash :=
  ⟨width, power (width - 1)⟩

/-- Hashes windows of `width` bytes, of which there has to be at least one. -/
def ofWidth? (width : Nat) : Option RollingHash :=
  if width = 0 then none else some (ofWidth width)

/-- The hash for matches. -/
def standard : RollingHash := ofWidth blockSize

def push (h : UInt32) (byte : UInt8) : UInt32 :=
  (h * base + byte.toUInt32) &&& mask

def hash (hasher : RollingHash) (bytes : List UInt8) : UInt32 :=
  (bytes.take hasher.width).foldl push 0

def hash? (hasher : RollingHash) (bytes : List UInt8) : Option UInt32 :=
  if bytes.length < hasher.width then none else some (hasher.hash bytes)

def hashAt (hasher : RollingHash) (bytes : Array UInt8) (start : Nat) : UInt32 :=
  hasher.hash (bytes.extract start (start + hasher.width)).toList

def roll (hasher : RollingHash) (h : UInt32) (oldest newest : UInt8) : UInt32 :=
  push (h - oldest.toUInt32 * hasher.oldestFactor) newest

/-- The hashes of all windows behind one whose hash is `h`. The window's own bytes are at the front
of `window`; `newer` are the bytes behind it. -/
def rollAll (hasher : RollingHash) (h : UInt32) : (window newer : List UInt8) → List UInt32
  | oldest :: window, newest :: newer =>
    let h := hasher.roll h oldest newest
    h :: rollAll hasher h window newer
  | _, _ => []

/-- The hashes of all windows of some bytes, if there is one, each but the first by rolling. -/
def hashes? (hasher : RollingHash) (bytes : List UInt8) : Option (List UInt32) :=
  (hasher.hash? bytes).map fun first =>
    first :: hasher.rollAll first bytes (bytes.drop hasher.width)

end RollingHash

/-- The bucket of a hash in a table whose size is a power of two and whose last index is
`lastIndex`. -/
def bucket (h : UInt32) (lastIndex : Nat) : Nat :=
  (h ^^^ (h >>> 11)).toNat &&& lastIndex

end DeltaCoding
