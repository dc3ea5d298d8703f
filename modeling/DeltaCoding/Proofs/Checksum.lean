import DeltaCoding.Checksum
import Mathlib.Data.List.Infix
import Mathlib.Tactic.Ring

/-!
# The checksum is exact

`lowSum` and `highSum` are the two sums as numbers. The words that stand for them are reduced once per
block, and `highBound` is what the bytes of a block can make of the larger one at most, so that no
addition overflows (`Sums.addBlocks?_eq`). A byte that is replaced by another one shifts the sum of the
bytes by less than the modulus, which shows in the lower half of the checksum
(`DifferInOneByte.adler32_ne`).
-/

namespace DeltaCoding.Checksum

@[simp] theorem toNat_modulus : modulus.toNat = 65521 := rfl

/-! ## The sums as numbers -/

/-- One more than the sum of the bytes. -/
def lowSum (bytes : List UInt8) : Nat :=
  (1 + (bytes.map UInt8.toNat).sum) % modulus.toNat

/-- The sum of the values that `lowSum` takes behind each of the bytes. -/
def highSum (bytes : List UInt8) : Nat :=
  (bytes.inits.tail.map lowSum).sum % modulus.toNat

theorem lowSum_lt (bytes : List UInt8) : lowSum bytes < modulus.toNat :=
  Nat.mod_lt _ (by decide)

theorem lowSum_concat (bytes : List UInt8) (byte : UInt8) :
    lowSum (bytes ++ [byte]) = (lowSum bytes + byte.toNat) % modulus.toNat := by
  rw [lowSum, lowSum, List.map_append, List.sum_append, List.map_singleton, List.sum_singleton,
    Nat.mod_add_mod, Nat.add_assoc]

theorem highSum_concat (bytes : List UInt8) (byte : UInt8) :
    highSum (bytes ++ [byte]) = (highSum bytes + lowSum (bytes ++ [byte])) % modulus.toNat := by
  have behind : (bytes ++ [byte]).inits.tail = bytes.inits.tail ++ [bytes ++ [byte]] := by
    rw [List.inits_append]
    cases bytes <;> rfl
  rw [highSum, highSum, behind, List.map_append, List.sum_append, List.map_singleton,
    List.sum_singleton, Nat.mod_add_mod]

/-- The words stand for the sums of the bytes. -/
structure Sums.Counts (s : Sums) (bytes : List UInt8) : Prop where
  low : s.low.toNat % modulus.toNat = lowSum bytes
  high : s.high.toNat % modulus.toNat = highSum bytes

/-! ## Words that do not overflow -/

/-- The sum of two words, if it is one. -/
def add? (x y : UInt32) : Option UInt32 :=
  if x.toNat + y.toNat < UInt32.size then some (x + y) else none

theorem add?_eq_some {x y : UInt32} (room : x.toNat + y.toNat < UInt32.size) :
    add? x y = some (x + y) ∧ (x + y).toNat = x.toNat + y.toNat := by
  refine ⟨if_pos room, ?_⟩
  rw [UInt32.toNat_add, Nat.mod_eq_of_lt room]

/-- What `n` bytes can make of the second sum, if both sums have been reduced before. -/
def highBound (n : Nat) : Nat :=
  255 * (n * (n + 1)) / 2 + (n + 1) * (modulus.toNat - 1)

theorem highBound_succ (n : Nat) :
    highBound (n + 1) = highBound n + (modulus.toNat - 1 + 255 * (n + 1)) := by
  have doubled : 255 * ((n + 1) * (n + 1 + 1)) = 255 * (n * (n + 1)) + 2 * (255 * (n + 1)) := by ring
  rw [highBound, highBound, doubled, Nat.add_mul_div_left _ _ (by decide), toNat_modulus]
  omega

theorem highBound_mono {n m : Nat} (le : n ≤ m) : highBound n ≤ highBound m := by
  induction le with
  | refl => exact Nat.le_refl _
  | step _ ih =>
    rw [highBound_succ]
    omega

theorem highBound_blockLength :
    highBound blockLength < UInt32.size ∧ UInt32.size ≤ highBound (blockLength + 1) := by
  decide

namespace Sums

variable {s : Sums} {byte : UInt8} {front bytes : List UInt8} {n : Nat}

/-- Adds a byte, if neither sum overflows. -/
def add? (s : Sums) (byte : UInt8) : Option Sums := do
  let low ← Checksum.add? s.low byte.toUInt32
  let high ← Checksum.add? s.high low
  pure ⟨low, high⟩

/-- Adds the bytes block by block, if no addition overflows. -/
def addBlocks? (s : Sums) (bytes : List UInt8) : Option Sums :=
  if bytes.isEmpty then some s
  else do
    let sums ← (bytes.take blockLength).foldlM add? s
    addBlocks? sums.reduce (bytes.drop blockLength)
termination_by bytes.length
decreasing_by exact length_drop_blockLength ‹_›

/-- There have been at most `n` bytes since the sums were reduced. -/
structure Bounded (s : Sums) (n : Nat) : Prop where
  low : s.low.toNat ≤ modulus.toNat - 1 + 255 * n
  high : s.high.toNat ≤ highBound n

theorem bounded_empty : empty.Bounded 0 :=
  ⟨by decide, by decide⟩

theorem counts_empty : empty.Counts [] :=
  ⟨rfl, rfl⟩

theorem bounded_reduce (s : Sums) : s.reduce.Bounded 0 := by
  have reduced (x : UInt32) : (x % modulus).toNat ≤ modulus.toNat - 1 := by
    rw [UInt32.toNat_mod]
    exact Nat.le_sub_one_of_lt (Nat.mod_lt _ (by decide))
  exact ⟨reduced s.low, reduced s.high⟩

theorem Counts.reduce (counts : s.Counts bytes) : s.reduce.Counts bytes := by
  refine ⟨?_, ?_⟩
  · rw [Sums.reduce, UInt32.toNat_mod, Nat.mod_mod, counts.low]
  · rw [Sums.reduce, UInt32.toNat_mod, Nat.mod_mod, counts.high]

theorem add?_eq (bounded : s.Bounded n) (room : n < blockLength) (byte : UInt8) :
    s.add? byte = some (s.add byte) ∧ (s.add byte).Bounded (n + 1) ∧
      (s.add byte).low.toNat = s.low.toNat + byte.toNat ∧
      (s.add byte).high.toNat = s.high.toNat + (s.low.toNat + byte.toNat) := by
  have small : byte.toUInt32.toNat ≤ 255 := Nat.le_of_lt_succ byte.toNat_lt
  have block : highBound (n + 1) < UInt32.size :=
    Nat.lt_of_le_of_lt (highBound_mono room) highBound_blockLength.1
  have next := highBound_succ n
  obtain ⟨lowBound, highBounded⟩ := bounded
  obtain ⟨addedLow, low⟩ := @add?_eq_some s.low byte.toUInt32 (by omega)
  obtain ⟨addedHigh, high⟩ := @add?_eq_some s.high (s.low + byte.toUInt32) (by omega)
  refine ⟨?_, ⟨?_, ?_⟩, low, ?_⟩
  · simp only [add?, addedLow, addedHigh, Option.bind_eq_bind, Option.bind_some, add]
    rfl
  · simp only [add, low]
    omega
  · simp only [add, high, low]
    omega
  · simp only [add, high, low]
    rfl

theorem Counts.add (counts : s.Counts front) (bounded : s.Bounded n) (room : n < blockLength)
    (byte : UInt8) : (s.add byte).Counts (front ++ [byte]) := by
  obtain ⟨-, -, low, high⟩ := add?_eq bounded room byte
  have lowSum : (s.low.toNat + byte.toNat) % modulus.toNat = lowSum (front ++ [byte]) := by
    rw [lowSum_concat, ← counts.low, Nat.mod_add_mod]
  refine ⟨by rw [low, lowSum], ?_⟩
  rw [high, highSum_concat, ← lowSum, ← counts.high, ← Nat.add_mod]

theorem foldlM_add? (bounded : s.Bounded n) (counts : s.Counts front)
    (room : n + bytes.length ≤ blockLength) :
    bytes.foldlM add? s = some (bytes.foldl add s) ∧
      (bytes.foldl add s).Counts (front ++ bytes) := by
  induction bytes generalizing s n front with
  | nil => exact ⟨rfl, by rwa [List.append_nil]⟩
  | cons byte rest ih =>
    rw [List.length_cons] at room
    obtain ⟨added, bounded', -⟩ := add?_eq bounded (by omega) byte
    obtain ⟨others, counts'⟩ := ih bounded' (counts.add bounded (by omega) byte) (by omega)
    refine ⟨?_, ?_⟩
    · rw [List.foldlM_cons, added]
      exact others
    · rwa [List.append_assoc] at counts'

/-- No addition overflows, and what comes out are the sums. -/
theorem addBlocks?_eq (bounded : s.Bounded 0) (counts : s.Counts front) :
    s.addBlocks? bytes = some (s.addBlocks bytes) ∧ (s.addBlocks bytes).Bounded 0 ∧
      (s.addBlocks bytes).Counts (front ++ bytes) := by
  -- Block by block. In front of each, the sums are reduced and stand for what has been added.
  fun_induction addBlocks s bytes generalizing front with
  | case1 s bytes none =>
    obtain rfl := List.isEmpty_iff.1 none
    rw [addBlocks?, if_pos none, List.append_nil]
    exact ⟨rfl, bounded, counts⟩
  | case2 s bytes some ih =>
    obtain ⟨block, counts'⟩ := @foldlM_add? _ _ (bytes.take blockLength) _ bounded counts
      (by rw [List.length_take]; omega)
    obtain ⟨others, bounded', counts''⟩ := ih (bounded_reduce _) counts'.reduce
    rw [List.append_assoc, List.take_append_drop] at counts''
    rw [addBlocks?, if_neg some, block]
    exact ⟨others, bounded', counts''⟩

theorem toNat_word (bounded : s.Bounded 0) :
    s.word.toNat = (s.high.toNat <<< 16) ||| s.low.toNat := by
  have fits : s.high.toNat <<< 16 < 2 ^ 32 := by
    have high : s.high.toNat ≤ 65520 := bounded.high
    rw [Nat.shiftLeft_eq]
    omega
  rw [word, UInt32.toNat_or, UInt32.toNat_shiftLeft]
  exact congrArg (· ||| s.low.toNat) (Nat.mod_eq_of_lt fits)

theorem Counts.eq_low (counts : s.Counts bytes) (bounded : s.Bounded 0) :
    s.low.toNat = lowSum bytes := by
  have low : s.low.toNat ≤ 65520 := bounded.low
  rw [← counts.low, Nat.mod_eq_of_lt (by rw [toNat_modulus]; omega)]

theorem Counts.eq_high (counts : s.Counts bytes) (bounded : s.Bounded 0) :
    s.high.toNat = highSum bytes := by
  have high : s.high.toNat ≤ 65520 := bounded.high
  rw [← counts.high, Nat.mod_eq_of_lt (by rw [toNat_modulus]; omega)]

end Sums

/-! ## The checksum -/

/-- The checksum, if no addition overflows. -/
def adler32? (bytes : List UInt8) : Option UInt32 :=
  (Sums.empty.addBlocks? bytes).map Sums.word

theorem adler32?_eq (bytes : List UInt8) : adler32? bytes = some (adler32 bytes) := by
  rw [adler32?, (Sums.addBlocks?_eq Sums.bounded_empty Sums.counts_empty).1]
  rfl

theorem toNat_adler32 (bytes : List UInt8) :
    (adler32 bytes).toNat = (highSum bytes <<< 16) ||| lowSum bytes := by
  obtain ⟨-, bounded, counts⟩ :=
    @Sums.addBlocks?_eq _ _ bytes Sums.bounded_empty Sums.counts_empty
  rw [adler32, Sums.toNat_word bounded, counts.eq_low bounded, counts.eq_high bounded]
  rfl

theorem lowSum_eq_mod (bytes : List UInt8) : lowSum bytes = (adler32 bytes).toNat % 2 ^ 16 := by
  have half : lowSum bytes < 2 ^ 16 := Nat.lt_trans (lowSum_lt bytes) (by decide)
  rw [toNat_adler32, ← Nat.shiftLeft_add_eq_or_of_lt half, Nat.shiftLeft_eq, Nat.mul_add_mod_self_right,
    Nat.mod_eq_of_lt half]

/-! ## One byte -/

/-- The byte strings are of one length and differ at one place. -/
def DifferInOneByte (bytes bytes' : List UInt8) : Prop :=
  bytes.length = bytes'.length ∧ ∃! i : Nat, bytes[i]? ≠ bytes'[i]?

theorem DifferInOneByte.split {bytes bytes' : List UInt8} (h : DifferInOneByte bytes bytes') :
    ∃ front byte byte' back, byte ≠ byte' ∧ bytes = front ++ byte :: back ∧
      bytes' = front ++ byte' :: back := by
  obtain ⟨length, i, differ, only⟩ := h
  have same (j : Nat) (other : j ≠ i) : bytes[j]? = bytes'[j]? :=
    Decidable.not_not.1 fun h => other (only j h)
  have inside : i < bytes.length := by
    refine Nat.not_le.1 fun beyond => differ ?_
    rw [List.getElem?_eq_none beyond, List.getElem?_eq_none (length ▸ beyond)]
  have inside' : i < bytes'.length := length ▸ inside
  have front : bytes.take i = bytes'.take i := by
    refine List.ext_getElem? fun j => ?_
    rw [List.getElem?_take, List.getElem?_take]
    split
    · exact same j (by omega)
    · rfl
  have back : bytes.drop (i + 1) = bytes'.drop (i + 1) := by
    refine List.ext_getElem? fun j => ?_
    rw [List.getElem?_drop, List.getElem?_drop]
    exact same _ (by omega)
  refine ⟨bytes.take i, bytes[i], bytes'[i], bytes.drop (i + 1), ?_, ?_, ?_⟩
  · rwa [List.getElem?_eq_getElem inside, List.getElem?_eq_getElem inside', ne_eq,
      Option.some.injEq] at differ
  · rw [List.getElem_cons_drop, List.take_append_drop]
  · rw [front, back, List.getElem_cons_drop, List.take_append_drop]

theorem lowSum_ne {front back : List UInt8} {byte byte' : UInt8} (differ : byte ≠ byte') :
    lowSum (front ++ byte :: back) ≠ lowSum (front ++ byte' :: back) := by
  have values : byte.toNat ≠ byte'.toNat := fun same => differ (UInt8.toNat_inj.1 same)
  have small := byte.toNat_lt
  have small' := byte'.toNat_lt
  simp only [lowSum, List.map_append, List.sum_append, List.map_cons, List.sum_cons, toNat_modulus]
  omega

theorem DifferInOneByte.adler32_ne {bytes bytes' : List UInt8} (h : DifferInOneByte bytes bytes') :
    adler32 bytes ≠ adler32 bytes' := by
  obtain ⟨front, byte, byte', back, differ, rfl, rfl⟩ := h.split
  intro same
  apply lowSum_ne differ
  rw [lowSum_eq_mod, same, ← lowSum_eq_mod]

end DeltaCoding.Checksum
