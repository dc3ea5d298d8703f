import DeltaCoding.Match.Compare

/-!
# Stretches that agree

What is counted as agreeing does agree. Eight bytes are compared as one word, so that the bits of a
word have to be traced to the bytes that they come from (`testBit_wordAt`): zero bits at the low end
of a difference are bytes that are the same.
-/

namespace DeltaCoding.Match

variable {a b : Array UInt8} {i j k t limit matched : Nat}

/-! ## Words -/

theorem testBit_byte (byte : UInt8) (ht : t < 8) :
    byte.toUInt64.toNat.testBit (8 * k + t) = (decide (k = 0) && byte.toNat.testBit t) := by
  rw [UInt8.toNat_toUInt64]
  by_cases first : k = 0
  · subst first
    rw [Nat.mul_zero, Nat.zero_add, decide_eq_true rfl, Bool.true_and]
  · have small : byte.toNat < 2 ^ (8 * k + t) :=
      Nat.lt_of_lt_of_le byte.toNat_lt (Nat.pow_le_pow_right (by omega) (by omega))
    rw [Nat.testBit_lt_two_pow small, decide_eq_false first, Bool.false_and]

theorem testBit_shifted (byte : UInt8) {m : Nat} {shift : UInt64} (moved : shift.toNat % 64 = 8 * m)
    (hk : k < 8) (ht : t < 8) : (byte.toUInt64 <<< shift).toNat.testBit (8 * k + t) =
      (decide (k = m) && byte.toNat.testBit t) := by
  have inWord : 8 * k + t < 64 := by omega
  rw [UInt64.toNat_shiftLeft, Nat.testBit_mod_two_pow, Nat.testBit_shiftLeft, moved,
    decide_eq_true inWord, Bool.true_and]
  by_cases above : m ≤ k
  · rw [show 8 * k + t - 8 * m = 8 * (k - m) + t by omega, testBit_byte byte ht,
      decide_eq_true (show 8 * k + t ≥ 8 * m by omega), Bool.true_and]
    by_cases same : k = m
    · rw [decide_eq_true same, decide_eq_true (show k - m = 0 by omega)]
    · rw [decide_eq_false same, decide_eq_false (show ¬ k - m = 0 by omega)]
  · rw [decide_eq_false (show ¬ 8 * k + t ≥ 8 * m by omega),
      decide_eq_false (show ¬ k = m by omega), Bool.false_and, Bool.false_and]

/-- The bits of a word are those of its bytes. -/
theorem testBit_wordAt (bytes : Array UInt8) (i : Nat) (hk : k < 8) (ht : t < 8) :
    (wordAt bytes i).toNat.testBit (8 * k + t) = (bytes[i + k]?.getD 0).toNat.testBit t := by
  simp only [wordAt, UInt64.toNat_or, Nat.testBit_or, testBit_byte _ ht,
    testBit_shifted _ (show UInt64.toNat 8 % 64 = 8 * 1 from rfl) hk ht,
    testBit_shifted _ (show UInt64.toNat 16 % 64 = 8 * 2 from rfl) hk ht,
    testBit_shifted _ (show UInt64.toNat 24 % 64 = 8 * 3 from rfl) hk ht,
    testBit_shifted _ (show UInt64.toNat 32 % 64 = 8 * 4 from rfl) hk ht,
    testBit_shifted _ (show UInt64.toNat 40 % 64 = 8 * 5 from rfl) hk ht,
    testBit_shifted _ (show UInt64.toNat 48 % 64 = 8 * 6 from rfl) hk ht,
    testBit_shifted _ (show UInt64.toNat 56 % 64 = 8 * 7 from rfl) hk ht]
  -- Of the eight bytes of the word only the one at place k has bits here.
  have places : k = 0 ∨ k = 1 ∨ k = 2 ∨ k = 3 ∨ k = 4 ∨ k = 5 ∨ k = 6 ∨ k = 7 := by omega
  rcases places with rfl | rfl | rfl | rfl | rfl | rfl | rfl | rfl <;> simp

theorem testBit_of_trailingZeros {word : UInt64} {bits n : Nat}
    (h : n < trailingZeros word bits) : word.toNat.testBit n = false := by
  induction bits generalizing word n with
  | zero => exact absurd h (Nat.not_lt_zero n)
  | succ bits ih =>
    simp only [trailingZeros] at h
    split at h
    · exact absurd h (Nat.not_lt_zero n)
    · next even =>
      cases n with
      | zero =>
        have low : word.toNat % 2 ≠ 1 := by
          intro odd
          refine even (UInt64.toNat_inj.1 ?_)
          rw [UInt64.toNat_and, show UInt64.toNat 1 = 1 from rfl, Nat.and_one_is_mod, odd]
        rw [Nat.testBit_zero]
        exact decide_eq_false low
      | succ n =>
        have shifted := ih (Nat.lt_of_succ_lt_succ h)
        rwa [UInt64.toNat_shiftRight, show UInt64.toNat 1 % 64 = 1 from rfl,
          Nat.testBit_shiftRight, Nat.add_comm 1 n] at shifted

theorem trailingZeros_le (word : UInt64) (bits : Nat) : trailingZeros word bits ≤ bits := by
  induction bits generalizing word with
  | zero => exact Nat.le_refl 0
  | succ bits ih =>
    simp only [trailingZeros]
    split
    · exact Nat.zero_le _
    · exact Nat.succ_le_succ (ih _)

theorem byte_ext {x y : UInt8} (h : ∀ t, t < 8 → x.toNat.testBit t = y.toNat.testBit t) :
    x = y := by
  refine UInt8.toNat_inj.1 (Nat.eq_of_testBit_eq fun t => ?_)
  by_cases ht : t < 8
  · exact h t ht
  · have high (byte : UInt8) : byte.toNat < 2 ^ t :=
      Nat.lt_of_lt_of_le byte.toNat_lt (Nat.pow_le_pow_right (by omega) (by omega))
    rw [Nat.testBit_lt_two_pow (high x), Nat.testBit_lt_two_pow (high y)]

theorem byte_eq_of_words (hk : k < 8)
    (h : ∀ t, t < 8 → (wordAt a i ^^^ wordAt b j).toNat.testBit (8 * k + t) = false) :
    a[i + k]?.getD 0 = b[j + k]?.getD 0 := by
  apply byte_ext
  intro t ht
  have zero := h t ht
  rw [UInt64.toNat_xor, Nat.testBit_xor, testBit_wordAt a i hk ht, testBit_wordAt b j hk ht] at zero
  exact bne_eq_false_iff_eq.1 zero

/-! ## Going forward -/

/-- What is counted beyond `matched` agrees, and is no more than `limit`. -/
structure Agrees (a b : Array UInt8) (i j limit matched count : Nat) : Prop where
  grows : matched ≤ count
  bounded : matched ≤ limit → count ≤ limit
  same : ∀ k, matched ≤ k → k < count → a[i + k]? = b[j + k]?

theorem agrees_none : Agrees a b i j limit matched matched :=
  ⟨Nat.le_refl _, id, fun _ below above => absurd above (Nat.not_lt.2 below)⟩

theorem agrees_forwardBytes :
    Agrees a b i j limit matched (forwardBytes a b i j limit matched) := by
  fun_induction forwardBytes a b i j limit matched with
  | case1 matched room equal ih =>
    refine ⟨Nat.le_of_succ_le ih.grows, fun _ => ih.bounded room, fun k below above => ?_⟩
    by_cases first : k = matched
    · rw [first, equal]
    · exact ih.same k (by omega) above
  | case2 => exact agrees_none
  | case3 => exact agrees_none

theorem getElem?_eq_of_getD (inA : i + k < a.size) (inB : j + k < b.size)
    (h : a[i + k]?.getD 0 = b[j + k]?.getD 0) : a[i + k]? = b[j + k]? := by
  rw [Array.getElem?_eq_getElem inA, Array.getElem?_eq_getElem inB] at h ⊢
  exact congrArg some h

theorem agrees_forwardWords (inA : i + limit ≤ a.size) (inB : j + limit ≤ b.size) :
    Agrees a b i j limit matched (forwardWords a b i j limit matched) := by
  -- Bytes agree as far as the low bits of the difference of their words are zero.
  have same {matched k n : Nat} (room : matched + 8 ≤ limit) (below : matched ≤ k)
      (above : k < matched + n / 8) (bound : n ≤ 64)
      (zero : ∀ t, t < n → (wordAt a (i + matched) ^^^ wordAt b (j + matched)).toNat.testBit t =
        false) : a[i + k]? = b[j + k]? := by
    obtain ⟨k, rfl⟩ := Nat.exists_eq_add_of_le below
    refine getElem?_eq_of_getD (by omega) (by omega) ?_
    rw [← Nat.add_assoc, ← Nat.add_assoc]
    exact byte_eq_of_words (by omega) fun t ht => zero _ (by omega)
  fun_induction forwardWords a b i j limit matched with
  | case1 matched room difference equal ih =>
    refine ⟨Nat.le_trans (Nat.le_add_right _ _) ih.grows, fun _ => ih.bounded room,
      fun k below above => ?_⟩
    by_cases inWord : k < matched + 8
    · apply same (n := 64) room below inWord (Nat.le_refl _)
      intro t _
      rw [show wordAt a (i + matched) ^^^ wordAt b (j + matched) = 0 from equal]
      exact Nat.zero_testBit t
    · exact ih.same k (by omega) above
  | case2 matched room difference unequal =>
    -- The words differ, and the count ends at the byte with the first one bit.
    have bound := trailingZeros_le difference 64
    refine ⟨Nat.le_add_right _ _, fun _ => by omega, fun k below above => ?_⟩
    exact same room below above bound fun t ht => testBit_of_trailingZeros ht
  | case3 matched short => exact agrees_forwardBytes

theorem forward_spec (positive : 0 < forward a b i j limit) :
    i + forward a b i j limit ≤ a.size ∧ j + forward a b i j limit ≤ b.size ∧
      ∀ k, k < forward a b i j limit → a[i + k]? = b[j + k]? := by
  have room : 0 < min limit (min (a.size - i) (b.size - j)) := by
    by_cases none : min limit (min (a.size - i) (b.size - j)) = 0
    · rw [forward, none, forwardWords, if_neg (by omega), forwardBytes, if_neg (by omega)] at positive
      exact absurd positive (Nat.lt_irrefl 0)
    · exact Nat.pos_of_ne_zero none
  have agrees := @agrees_forwardWords a b i j (min limit (min (a.size - i) (b.size - j))) 0
    (by omega) (by omega)
  have bounded := agrees.bounded (Nat.zero_le _)
  refine ⟨?_, ?_, fun k bound => agrees.same k (Nat.zero_le _) bound⟩
  all_goals
    simp only [forward]
    omega

/-! ## Going backward, and runs -/

theorem backwardBytes_spec (h : matched ≤ limit)
    (before : ∀ k, k < matched → a[i - 1 - k]? = b[j - 1 - k]?) :
    backwardBytes a b i j limit matched ≤ limit ∧
      ∀ k, k < backwardBytes a b i j limit matched → a[i - 1 - k]? = b[j - 1 - k]? := by
  fun_induction backwardBytes a b i j limit matched with
  | case1 matched room equal ih =>
    apply ih room
    intro k bound
    by_cases last : k = matched
    · rw [last, equal]
    · exact before k (by omega)
  | case2 => exact ⟨h, before⟩
  | case3 => exact ⟨h, before⟩

theorem backward_spec : backward a b i j limit ≤ limit ∧ backward a b i j limit ≤ i ∧
    backward a b i j limit ≤ j ∧
      ∀ k, k < backward a b i j limit → a[i - 1 - k]? = b[j - 1 - k]? := by
  obtain ⟨bound, same⟩ := @backwardBytes_spec a b i j (min limit (min i j)) 0 (Nat.zero_le _)
    (fun _ h => by cases h)
  refine ⟨?_, ?_, ?_, same⟩
  all_goals
    simp only [backward]
    omega

theorem runFrom_spec {bytes : Array UInt8} {byte : UInt8} {counted : Nat} (h : counted ≤ limit)
    (before : ∀ k, k < counted → bytes[i + k]? = some byte) :
    runFrom bytes byte i limit counted ≤ limit ∧
      ∀ k, k < runFrom bytes byte i limit counted → bytes[i + k]? = some byte := by
  fun_induction runFrom bytes byte i limit counted with
  | case1 counted room equal ih =>
    apply ih room
    intro k bound
    by_cases last : k = counted
    · rw [last, equal]
    · exact before k (by omega)
  | case2 => exact ⟨h, before⟩
  | case3 => exact ⟨h, before⟩

theorem runLength_spec {bytes : Array UInt8} {byte : UInt8} :
    ∀ k, k < runLength bytes byte i limit → bytes[i + k]? = some byte :=
  (runFrom_spec (Nat.zero_le _) (fun _ h => by cases h)).2

theorem runFrom_uniform {bytes : Array UInt8} {byte : UInt8} {counted : Nat}
    (uniform : ∀ b ∈ bytes, b = byte) (room : counted ≤ min limit (bytes.size - i)) :
    runFrom bytes byte i limit counted = min limit (bytes.size - i) := by
  fun_induction runFrom bytes byte i limit counted with
  | case1 counted below same ih =>
    obtain ⟨inside, -⟩ := Array.getElem?_eq_some_iff.1 same
    exact ih (by omega)
  | case2 counted below differs =>
    by_cases inside : i + counted < bytes.size
    · rw [Array.getElem?_eq_getElem inside, uniform _ (Array.getElem_mem inside)] at differs
      exact absurd rfl differs
    · omega
  | case3 counted full => omega

theorem runLength_uniform {bytes : Array UInt8} {byte : UInt8} (uniform : ∀ b ∈ bytes, b = byte) :
    runLength bytes byte i limit = min limit (bytes.size - i) :=
  runFrom_uniform uniform (Nat.zero_le _)

end DeltaCoding.Match
