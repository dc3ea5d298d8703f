import DeltaCoding.Cursor

/-!
# Variable-length integers

Numbers are written in base 128, most significant digit first, one digit a byte. Every byte but the
last has its high bit set. Writers use the fewest digits; readers accept zeros in front as long as
the field's length limit allows them.

A field has a longest form and a largest value. Reading stops as malformed at the first digit that
takes the value over its bound, at once and not at the last digit, so that more input never changes
the verdict.
-/

namespace DeltaCoding.Varint

/-! ## Writing -/

/-- Puts the digits of `n`, each marked as continued, in front of `tail`. -/
def continued (n : Nat) (tail : List UInt8) : List UInt8 :=
  if n = 0 then tail
  else continued (n / 128) (UInt8.ofNat (128 + n % 128) :: tail)
termination_by n
decreasing_by omega

def encode (n : Nat) : List UInt8 :=
  continued (n / 128) [UInt8.ofNat (n % 128)]

/-- The number of bytes of the shortest form: one for every seven bits begun, and one for zero. -/
def encodedLength (n : Nat) : Nat :=
  n.log2 / 7 + 1

/-! ## Reading -/

/-- What a field may hold. -/
structure Field where
  /-- The most bytes that the field's form may have. -/
  maxLength : Nat
  /-- The largest value of the field. -/
  maxValue : Nat

def maxInt32 : Nat := 0x7FFFFFFF

def maxInt64 : Nat := 0x7FFFFFFFFFFFFFFF

/-- A 32-bit signed field, of which only the non-negative half is used. -/
def int32 : Field := ⟨5, maxInt32⟩

/-- A 64-bit signed field, of which only the non-negative half is used. -/
def int64 : Field := ⟨9, maxInt64⟩

def maxUInt32 : Nat := 0xFFFFFFFF

/-- Reads at most `left` more digits behind a number whose digits so far are worth `value`. -/
def parseDigits (maxValue : Nat) : (left value : Nat) → Parser Nat
  | 0, _ => Parser.malformed .invalidVarint
  | left + 1, value => do
    let digit ← Parser.byte
    let value := value * 128 + digit.toNat % 128
    -- Further digits only make the value larger.
    if value > maxValue then Parser.malformed .invalidVarint
    else if digit.toNat < 128 then pure value
    else parseDigits maxValue left value

def parse (field : Field) : Parser Nat :=
  parseDigits field.maxValue field.maxLength 0

def parseInt32 : Parser Nat := parse int32

def parseInt64 : Parser Nat := parse int64

/-- Reads a 32-bit number, which may be written in the longer form of a 63-bit one. -/
def parseUInt32 : Parser Nat := do
  let value ← parse int64
  if value > maxUInt32 then Parser.malformed .invalidVarint else pure value

/-! ## Reading moves forward -/

theorem reaches_parseDigits {maxValue left value n : Nat} {c c' : Cursor}
    (h : parseDigits maxValue left value c = .ok (n, c')) :
    c.Reaches c' ∧ c'.rest.length < c.rest.length := by
  induction left generalizing value c with
  | zero => cases h
  | succ left ih =>
    simp only [parseDigits, bind, StateT.bind, Except.bind] at h
    split at h
    · cases h
    · next b hb =>
      obtain ⟨digit, c₁⟩ := b
      have reach := Parser.reaches_byte hb
      have short := Parser.length_of_byte hb
      simp only at h
      split at h
      · cases h
      · split at h
        · cases h
          exact ⟨reach, by omega⟩
        · obtain ⟨reach', short'⟩ := ih h
          exact ⟨reach.trans reach', by omega⟩

theorem reaches_parse {field : Field} {n : Nat} {c c' : Cursor}
    (h : parse field c = .ok (n, c')) : c.Reaches c' ∧ c'.rest.length < c.rest.length :=
  reaches_parseDigits h

theorem reaches_parseUInt32 {n : Nat} {c c' : Cursor} (h : parseUInt32 c = .ok (n, c')) :
    c.Reaches c' := by
  simp only [parseUInt32, bind, StateT.bind, Except.bind] at h
  split at h
  · cases h
  · next b hb =>
    obtain ⟨value, c₁⟩ := b
    simp only at h
    split at h
    · cases h
    · cases h
      exact (reaches_parse hb).1

end DeltaCoding.Varint
