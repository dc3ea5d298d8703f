import DeltaCoding.Proofs.Varint.Forms
import Mathlib.Data.Nat.Bitwise

/-!
# Numbers in machine words

A machine holds a number in a word of 64 bits, reads digits into it with shifts and masks, and writes
it into a buffer of a fixed size, from the end. A shift drops what it moves out of the word, and a
buffer may be too small; both are failures here. Neither ever happens: no field is so long that a digit
is lost (`parse_eq`), and ten bytes are enough for any word (`encode?_eq`).
-/

namespace DeltaCoding.Varint.Word

/-- The word with one more digit behind it. There is none if the shift drops a bit that is set. -/
def push? (value : UInt64) (digit : UInt8) : Option UInt64 :=
  let shifted := value <<< 7
  if shifted >>> 7 = value then some (shifted ||| (digit &&& 0x7F).toUInt64) else none

def parseDigits (maxValue : UInt64) : (left : Nat) → (value : UInt64) → Parser UInt64
  | 0, _ => Parser.malformed .invalidVarint
  | left + 1, value => do
    let digit ← Parser.byte
    match push? value digit with
    | none => fun _ => .error .breach
    | some value =>
      if value > maxValue then Parser.malformed .invalidVarint
      else if digit &&& 0x80 = 0 then pure value
      else parseDigits maxValue left value

def parse (field : Field) : Parser UInt64 :=
  parseDigits (.ofNat field.maxValue) field.maxLength 0

/-- Puts the digits of a word in front of `tail`, the last one first and each marked as continued, as
long as there is room for them. -/
def putDigits : (room : Nat) → (value : UInt64) → (tail : List UInt8) → Option (List UInt8)
  | 0, _, _ => none
  | room + 1, value, tail =>
    let tail := (value.toUInt8 &&& 0x7F ||| 0x80) :: tail
    if value >>> 7 = 0 then some tail else putDigits room (value >>> 7) tail

def bufferSize : Nat := 10

/-- Writes all digits as continued, and then takes the mark off the last one. -/
def encode? (value : UInt64) : Option (List UInt8) :=
  (putDigits bufferSize value []).map fun bytes =>
    bytes.dropLast ++ (bytes.getLast?.map (· &&& 0x7F)).toList

/-! ## Digits -/

theorem toNat_mask (digit : UInt8) : (digit &&& 0x7F).toNat = digit.toNat % 128 := by
  rw [UInt8.toNat_and, show (0x7F : UInt8).toNat = 2 ^ 7 - 1 from rfl,
    Nat.and_two_pow_sub_one_eq_mod]

theorem mark_eq_zero_iff (digit : UInt8) : digit &&& 0x80 = 0 ↔ digit.toNat < 128 := by
  have small := digit.toNat_lt
  rw [← UInt8.toNat_inj, UInt8.toNat_and, show (0x80 : UInt8).toNat = 2 ^ 7 from rfl,
    Nat.and_two_pow, Nat.testBit_eq_decide_div_mod_eq, UInt8.toNat_zero]
  by_cases marked : digit.toNat / 2 ^ 7 % 2 = 1
  · simp only [marked, decide_true, Bool.toNat_true]
    omega
  · simp only [marked, decide_false, Bool.toNat_false]
    omega

theorem toNat_mark (digit : UInt8) (h : digit.toNat < 128) :
    (digit ||| 0x80).toNat = 128 + digit.toNat := by
  have sum := Nat.two_pow_add_eq_or_of_lt (i := 7) h 1
  rw [UInt8.toNat_or, show (0x80 : UInt8).toNat = 2 ^ 7 * 1 from rfl, Nat.or_comm, ← sum]

/-! ## Reading -/

theorem push?_eq {value : Nat} {digit : UInt8} (fits : (value + 1) * 128 ≤ 2 ^ 64) :
    push? (.ofNat value) digit = some (.ofNat (pushDigit value digit)) := by
  have whole : (UInt64.ofNat value).toNat = value := by
    rw [UInt64.toNat_ofNat', Nat.mod_eq_of_lt (by omega)]
  have shifted : (UInt64.ofNat value <<< 7).toNat = value <<< 7 := by
    rw [UInt64.toNat_shiftLeft, whole, show (7 : UInt64).toNat % 64 = 7 from rfl,
      Nat.mod_eq_of_lt (by rw [Nat.shiftLeft_eq]; omega)]
  have back : (UInt64.ofNat value <<< 7) >>> 7 = UInt64.ofNat value := by
    rw [← UInt64.toNat_inj, UInt64.toNat_shiftRight, shifted, whole,
      show (7 : UInt64).toNat % 64 = 7 from rfl, Nat.shiftRight_eq_div_pow, Nat.shiftLeft_eq]
    omega
  have low : digit.toNat % 128 < 2 ^ 7 := by omega
  have sum : pushDigit value digit < 2 ^ 64 := by
    unfold pushDigit
    omega
  rw [push?, if_pos back]
  congr 1
  rw [← UInt64.toNat_inj, UInt64.toNat_or, shifted, UInt8.toNat_toUInt64, toNat_mask,
    ← Nat.shiftLeft_add_eq_or_of_lt low, Nat.shiftLeft_eq, UInt64.toNat_ofNat',
    Nat.mod_eq_of_lt sum]
  rfl

/-- The invariant leaves room in the word for as many digits as may still come. -/
theorem parseDigits_eq {maxValue left value : Nat} (bound : maxValue < 2 ^ 64)
    (room : (value + 1) * 128 ^ left ≤ 2 ^ 63) (c : Cursor) :
    parseDigits (.ofNat maxValue) left (.ofNat value) c =
      (Varint.parseDigits maxValue left value c).map fun r => (.ofNat r.1, r.2) := by
  induction left generalizing value c with
  | zero => rfl
  | succ left ih =>
    have grown : (value + 1) * 128 ≤ 2 ^ 63 := by
      refine Nat.le_trans (Nat.mul_le_mul_left _ ?_) room
      exact Nat.le_self_pow (Nat.succ_ne_zero left) 128
    cases read : Parser.byte c with
    | error stop => rw [parseDigits, Varint.parseDigits, Parser.bind_error read,
        Parser.bind_error read, Except.map]
    | ok r =>
      obtain ⟨digit, c₁⟩ := r
      have next : (pushDigit value digit + 1) * 128 ^ left ≤ 2 ^ 63 := by
        refine Nat.le_trans (Nat.mul_le_mul_right _ (?_ : _ ≤ (value + 1) * 128)) ?_
        · unfold pushDigit
          omega
        · rw [Nat.mul_assoc, ← Nat.pow_succ']
          exact room
      have small : pushDigit value digit < 2 ^ 64 := by
        unfold pushDigit
        omega
      have compare : UInt64.ofNat (pushDigit value digit) > UInt64.ofNat maxValue ↔
          pushDigit value digit > maxValue := by
        rw [GT.gt, UInt64.lt_iff_toNat_lt, UInt64.toNat_ofNat', UInt64.toNat_ofNat',
          Nat.mod_eq_of_lt bound, Nat.mod_eq_of_lt small]
      rw [parseDigits, Varint.parseDigits, Parser.bind_ok read, Parser.bind_ok read]
      simp only [push?_eq (show (value + 1) * 128 ≤ 2 ^ 64 by omega), mark_eq_zero_iff, compare]
      change _ = Except.map _ ((if pushDigit value digit > maxValue then _ else
        if digit.toNat < 128 then pure (pushDigit value digit) else _ : Parser Nat) c₁)
      split
      · rfl
      · split
        · rfl
        · exact ih next c₁

theorem parse_eq {field : Field} (length : field.maxLength ≤ 9) (bound : field.maxValue < 2 ^ 64)
    (c : Cursor) : parse field c = (Varint.parse field c).map fun r => (.ofNat r.1, r.2) := by
  apply parseDigits_eq bound
  rw [Nat.zero_add, Nat.one_mul]
  exact Nat.le_trans (Nat.pow_le_pow_right (by decide) length) (by decide)

/-! ## Writing -/

theorem toNat_shift (value : UInt64) : (value >>> 7).toNat = value.toNat / 128 := by
  rw [UInt64.toNat_shiftRight, show (7 : UInt64).toNat % 64 = 7 from rfl, Nat.shiftRight_eq_div_pow]

theorem toNat_low (value : UInt64) : (value.toUInt8 &&& 0x7F).toNat = value.toNat % 128 := by
  rw [toNat_mask, UInt64.toNat_toUInt8]
  omega

theorem lowDigit (value : UInt64) :
    value.toUInt8 &&& 0x7F ||| 0x80 = UInt8.ofNat (128 + value.toNat % 128) := by
  rw [← UInt8.toNat_inj, toNat_mark _ (by rw [toNat_low]; omega), toNat_low, toNat_continued]

theorem putDigits_single {room : Nat} {value : UInt64} {tail : List UInt8}
    (single : value.toNat / 128 = 0) : putDigits (room + 1) value tail =
      some (continued (value.toNat / 128) (.ofNat (128 + value.toNat % 128) :: tail)) := by
  have done : value >>> 7 = 0 := by
    rw [← UInt64.toNat_inj, toNat_shift, single]
    rfl
  rw [putDigits, if_pos done, lowDigit, single, continued_zero]

theorem putDigits_eq {room : Nat} {value : UInt64} {tail : List UInt8}
    (enough : (continued (value.toNat / 128) []).length ≤ room) :
    putDigits (room + 1) value tail =
      some (continued (value.toNat / 128) (.ofNat (128 + value.toNat % 128) :: tail)) := by
  induction room generalizing value tail with
  | zero =>
    apply putDigits_single
    by_cases single : value.toNat / 128 = 0
    · exact single
    · rw [continued_snoc single, List.length_append, List.length_singleton] at enough
      omega
  | succ room ih =>
    by_cases single : value.toNat / 128 = 0
    · exact putDigits_single single
    · have more : value >>> 7 ≠ 0 := fun zero => single (by rw [← toNat_shift, zero]; rfl)
      rw [continued_snoc single, List.length_append, List.length_singleton, ← toNat_shift] at enough
      rw [putDigits, if_neg more, ih (Nat.le_of_succ_le_succ enough), lowDigit, toNat_shift,
        continued_of_ne_zero single]

theorem encode?_eq (value : UInt64) : encode? value = some (encode value.toNat) := by
  have enough : (continued (value.toNat / 128) []).length ≤ 9 := by
    have small := value.toNat_lt
    rw [length_continued]
    split
    · exact Nat.zero_le 9
    · have bound : value.toNat / 128 ≤ 2 ^ 57 - 1 := by omega
      exact Nat.le_trans (encodedLength_mono bound) (by decide)
  have last : UInt8.ofNat (128 + value.toNat % 128) &&& 0x7F = UInt8.ofNat (value.toNat % 128) := by
    rw [← UInt8.toNat_inj, toNat_mask, toNat_continued, toNat_last]
    omega
  rw [encode?, bufferSize, putDigits_eq enough, continued_append, encode_eq, Option.map_some,
    List.dropLast_concat, List.getLast?_concat, Option.map_some, last]
  rfl

end DeltaCoding.Varint.Word
