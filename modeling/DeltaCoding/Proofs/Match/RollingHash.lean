import DeltaCoding.Match.RollingHash
import Mathlib.Data.ZMod.Basic
import Mathlib.Tactic.Ring

/-!
# Rolled hashes are hashes

A hash is the value of a polynomial modulo `2 ^ 23`. Words wrap modulo `2 ^ 32`, of which `2 ^ 23` is
a divisor, so that the residue of a word (`residue`) goes through sums, products and differences of
words, and through the mask. The residue of a rolled hash is that of a fresh one, and a masked word is
known by its residue (`roll_hash`); rolling on along a byte string meets the hash of each window
(`rollAll_hash`).
-/

namespace DeltaCoding.RollingHash

/-! ## Residues -/

/-- A word modulo `2 ^ 23`. -/
def residue (word : UInt32) : ZMod (2 ^ 23) := word.toNat

@[simp] theorem residue_zero : residue 0 = 0 :=
  Nat.cast_zero

theorem cast_mod_word (n : Nat) : ((n % 2 ^ 32 : Nat) : ZMod (2 ^ 23)) = n := by
  rw [ZMod.natCast_eq_natCast_iff]
  exact (Nat.mod_modEq n (2 ^ 32)).of_dvd (by decide)

@[simp] theorem residue_add (x y : UInt32) : residue (x + y) = residue x + residue y := by
  rw [residue, UInt32.toNat_add, cast_mod_word, Nat.cast_add]
  rfl

@[simp] theorem residue_mul (x y : UInt32) : residue (x * y) = residue x * residue y := by
  rw [residue, UInt32.toNat_mul, cast_mod_word, Nat.cast_mul]
  rfl

@[simp] theorem residue_sub (x y : UInt32) : residue (x - y) = residue x - residue y := by
  have sum := residue_add (x - y) y
  rw [UInt32.sub_add_cancel] at sum
  exact (sub_eq_of_eq_add sum).symm

theorem toNat_and_mask (word : UInt32) : (word &&& mask).toNat = word.toNat % 2 ^ 23 := by
  rw [UInt32.toNat_and, show mask.toNat = 2 ^ 23 - 1 from rfl, Nat.and_two_pow_sub_one_eq_mod]

@[simp] theorem residue_and_mask (word : UInt32) : residue (word &&& mask) = residue word := by
  rw [residue, toNat_and_mask, residue, ZMod.natCast_mod]

/-- The word is one that the mask leaves as it is. -/
def Masked (word : UInt32) : Prop :=
  word.toNat < 2 ^ 23

theorem masked_and_mask (word : UInt32) : Masked (word &&& mask) := by
  rw [Masked, toNat_and_mask]
  exact Nat.mod_lt _ (by decide)

theorem Masked.eq_of_residue {x y : UInt32} (hx : Masked x) (hy : Masked y)
    (h : residue x = residue y) : x = y := by
  rw [residue, residue, ZMod.natCast_eq_natCast_iff] at h
  exact UInt32.toNat_inj.1 (Nat.ModEq.eq_of_lt_of_lt h hx hy)

/-! ## Hashes -/

variable {width : Nat} {h : UInt32} {bytes : List UInt8}

theorem masked_push (h : UInt32) (byte : UInt8) : Masked (push h byte) :=
  masked_and_mask _

theorem residue_push (h : UInt32) (byte : UInt8) :
    residue (push h byte) = residue h * residue base + residue byte.toUInt32 := by
  rw [push, residue_and_mask, residue_add, residue_mul]

theorem residue_power (n : Nat) : residue (power n) = residue base ^ n := by
  induction n with
  | zero => rw [power, pow_zero, residue, UInt32.toNat_one, Nat.cast_one]
  | succ n ih =>
    rw [power, residue_and_mask, residue_mul, ih]
    exact (pow_succ _ n).symm

theorem residue_foldl_push (h : UInt32) (bytes : List UInt8) : residue (bytes.foldl push h) =
    residue h * residue base ^ bytes.length + residue (bytes.foldl push 0) := by
  induction bytes generalizing h with
  | nil =>
    rw [List.foldl_nil, List.foldl_nil, List.length_nil, pow_zero, mul_one, residue_zero, add_zero]
  | cons byte rest ih =>
    rw [List.foldl_cons, List.foldl_cons, ih (push h byte), ih (push 0 byte), residue_push,
      residue_push, residue_zero, List.length_cons]
    ring

theorem masked_foldl_push (masked : Masked h) (bytes : List UInt8) :
    Masked (bytes.foldl push h) := by
  induction bytes generalizing h with
  | nil => exact masked
  | cons byte rest ih => exact ih (masked_push h byte)

theorem masked_hash (hasher : RollingHash) (bytes : List UInt8) : Masked (hasher.hash bytes) :=
  masked_foldl_push (show (0 : UInt32).toNat < 2 ^ 23 by decide) _

@[simp] theorem width_ofWidth (width : Nat) : (ofWidth width).width = width := rfl

theorem hash_take (width : Nat) (bytes : List UInt8) :
    (ofWidth width).hash (bytes.take width) = (ofWidth width).hash bytes := by
  rw [hash, hash, width_ofWidth, List.take_take, Nat.min_self]

/-- Taking the oldest byte's share off and adding the newest byte gives the hash of the next
window. -/
theorem roll_hash {oldest newest : UInt8} {window : List UInt8}
    (length : window.length + 1 = width) :
    (ofWidth width).roll ((ofWidth width).hash (oldest :: window)) oldest newest =
      (ofWidth width).hash (window ++ [newest]) := by
  have before : (oldest :: window).take width = oldest :: window :=
    List.take_of_length_le (by rw [List.length_cons, length])
  have behind : (window ++ [newest]).take width = window ++ [newest] :=
    List.take_of_length_le (by rw [List.length_append, List.length_singleton, length])
  refine (masked_push _ _).eq_of_residue (masked_hash _ _) ?_
  have factor : (ofWidth width).oldestFactor = power window.length := by
    rw [ofWidth, ← length, Nat.add_sub_cancel]
  rw [hash, hash, width_ofWidth, before, behind, List.foldl_cons, List.foldl_append,
    List.foldl_cons, List.foldl_nil, residue_push, residue_sub, residue_mul, factor, residue_power,
    residue_foldl_push, residue_push, residue_push, residue_zero]
  ring

theorem roll_hash_drop {pos : Nat} {oldest newest : UInt8} (positive : 0 < width)
    (first : bytes[pos]? = some oldest) (next : bytes[pos + width]? = some newest) :
    (ofWidth width).roll ((ofWidth width).hash (bytes.drop pos)) oldest newest =
      (ofWidth width).hash (bytes.drop (pos + 1)) := by
  obtain ⟨inFirst, rfl⟩ := List.getElem?_eq_some_iff.1 first
  obtain ⟨inNext, rfl⟩ := List.getElem?_eq_some_iff.1 next
  obtain ⟨m, rfl⟩ := Nat.exists_eq_add_of_lt positive
  have window : (bytes.drop (pos + 1)).take (m + 1) =
      (bytes.drop (pos + 1)).take m ++ [bytes[pos + (m + 1)]] := by
    rw [List.take_add_one, List.getElem?_drop, List.getElem?_eq_getElem (by omega)]
    simp only [Option.toList_some, show pos + 1 + m = pos + (m + 1) by omega]
  rw [← hash_take _ (bytes.drop pos), ← hash_take _ (bytes.drop (pos + 1)),
    List.drop_eq_getElem_cons inFirst]
  simp only [Nat.zero_add, List.take_succ_cons, window]
  exact roll_hash (by rw [List.length_take, List.length_drop]; omega)

theorem rollAll_hash (positive : 0 < width) (pos : Nat) :
    (ofWidth width).rollAll ((ofWidth width).hash (bytes.drop pos)) (bytes.drop pos)
      (bytes.drop (pos + width)) =
    (List.range' (pos + 1) (bytes.length - (pos + width))).map fun i =>
      (ofWidth width).hash (bytes.drop i) := by
  induction left : bytes.length - (pos + width) generalizing pos with
  | zero =>
    rw [List.drop_eq_nil_of_le (by omega : bytes.length ≤ pos + width)]
    cases bytes.drop pos <;> rfl
  | succ left' ih =>
    have inNext : pos + width < bytes.length := by omega
    have inFirst : pos < bytes.length := by omega
    have rolled := roll_hash_drop positive (List.getElem?_eq_getElem inFirst)
      (List.getElem?_eq_getElem inNext)
    have later := ih (pos + 1) (by omega)
    rw [List.drop_eq_getElem_cons inNext, List.range'_succ, List.map_cons, ← later, ← rolled,
      show pos + width + 1 = pos + 1 + width by omega]
    rw [List.drop_eq_getElem_cons inFirst, rollAll]

theorem hashes?_eq (positive : 0 < width) (room : width ≤ bytes.length) :
    (ofWidth width).hashes? bytes = some ((List.range (bytes.length - width + 1)).map fun pos =>
      (ofWidth width).hash ((bytes.drop pos).take width)) := by
  have rolled := @rollAll_hash width bytes positive 0
  rw [Nat.zero_add, Nat.zero_add, List.drop_zero] at rolled
  rw [hashes?, hash?, width_ofWidth, if_neg (by omega), Option.map_some, rolled,
    List.range_eq_range', List.range'_succ, List.map_cons, List.drop_zero, hash_take width bytes]
  refine congrArg (fun rest => some (_ :: rest)) (List.map_congr_left fun pos _ => ?_)
  exact (hash_take width (bytes.drop pos)).symm

end DeltaCoding.RollingHash
