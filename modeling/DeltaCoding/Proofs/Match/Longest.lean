import DeltaCoding.Proofs.Match.Compare
import Mathlib.Order.Bounds.Basic

namespace DeltaCoding.Match

variable {a b : Array UInt8} {i j k limit matched count : Nat} {s t : List UInt8}

/-! ## Byte by byte -/

/-- What is counted agrees, and the next byte, if there is one to compare, does not. -/
structure EndsAt (s t : List UInt8) (limit count : Nat) : Prop where
  bounded : count ≤ limit ∧ count ≤ s.length ∧ count ≤ t.length
  same : ∀ k, k < count → s[k]? = t[k]?
  ends : count < limit → count < s.length → count < t.length → s[count]? ≠ t[count]?

theorem EndsAt.tail {x : UInt8} (h : EndsAt (x :: s) (x :: t) (limit + 1) (count + 1)) :
    EndsAt s t limit count := by
  obtain ⟨limited, inS, inT⟩ := h.bounded
  refine ⟨⟨Nat.le_of_succ_le_succ limited, Nat.le_of_succ_le_succ inS, Nat.le_of_succ_le_succ inT⟩,
    fun k below => ?_, fun below inS inT => ?_⟩
  · have same := h.same (k + 1) (Nat.succ_lt_succ below)
    rwa [List.getElem?_cons_succ, List.getElem?_cons_succ] at same
  · have ends := h.ends (Nat.succ_lt_succ below) (Nat.succ_lt_succ inS) (Nat.succ_lt_succ inT)
    rwa [List.getElem?_cons_succ, List.getElem?_cons_succ] at ends

theorem exhausted (others : ∀ (x : UInt8) (s' : List UInt8) (y : UInt8) (t' : List UInt8)
    (limit' : Nat), s = x :: s' → t = y :: t' → limit = limit'.succ → False) :
    s = [] ∨ t = [] ∨ limit = 0 := by
  rcases s with _ | ⟨x, s⟩
  · exact .inl rfl
  · rcases t with _ | ⟨y, t⟩
    · exact .inr (.inl rfl)
    · cases limit with
      | zero => exact .inr (.inr rfl)
      | succ limit => exact (others x s y t limit rfl rfl rfl).elim

/-- There is one count only. -/
theorem EndsAt.eq_agreement (h : EndsAt s t limit count) : count = agreement s t limit := by
  fun_induction agreement s t limit generalizing count with
  | case1 s x t limit ih =>
    cases count with
    | zero => exact absurd rfl (h.ends (Nat.succ_pos _) (Nat.succ_pos _) (Nat.succ_pos _))
    | succ count => rw [ih h.tail]
  | case2 x s y t limit differ =>
    cases count with
    | zero => rfl
    | succ count => exact absurd (Option.some.inj (h.same 0 (Nat.succ_pos _))) differ
  | case3 s t limit others =>
    obtain ⟨limited, inS, inT⟩ := h.bounded
    rcases exhausted others with rfl | rfl | rfl
    · exact Nat.le_zero.1 inS
    · exact Nat.le_zero.1 inT
    · exact Nat.le_zero.1 limited

/-- The lengths up to `limit` of the prefixes that two byte strings have in common. -/
def commonPrefixes (s t : List UInt8) (limit : Nat) : Set Nat :=
  {length | length ≤ limit ∧ ∃ front, front.length = length ∧ front <+: s ∧ front <+: t}

/-- The lengths up to `limit` of the suffixes that two byte strings have in common. -/
def commonSuffixes (s t : List UInt8) (limit : Nat) : Set Nat :=
  {length | length ≤ limit ∧ ∃ back, back.length = length ∧ back <:+ s ∧ back <:+ t}

theorem zero_mem_commonPrefixes : 0 ∈ commonPrefixes s t limit :=
  ⟨Nat.zero_le _, [], rfl, List.nil_prefix, List.nil_prefix⟩

theorem isGreatest_agreement (s t : List UInt8) (limit : Nat) :
    IsGreatest (commonPrefixes s t limit) (agreement s t limit) := by
  fun_induction agreement s t limit with
  | case1 s x t limit ih =>
    obtain ⟨⟨limited, front, length, inS, inT⟩, greatest⟩ := ih
    refine ⟨⟨Nat.succ_le_succ limited, x :: front, congrArg Nat.succ length,
      List.cons_prefix_cons.2 ⟨rfl, inS⟩, List.cons_prefix_cons.2 ⟨rfl, inT⟩⟩, ?_⟩
    rintro _ ⟨limited', front', rfl, inS', inT'⟩
    cases front' with
    | nil => exact Nat.zero_le _
    | cons y front' =>
      refine Nat.succ_le_succ (greatest ⟨Nat.le_of_succ_le_succ limited', front', rfl, ?_, ?_⟩)
      · exact (List.cons_prefix_cons.1 inS').2
      · exact (List.cons_prefix_cons.1 inT').2
  | case2 x s y t limit differ =>
    refine ⟨zero_mem_commonPrefixes, ?_⟩
    rintro _ ⟨-, front, rfl, inS, inT⟩
    cases front with
    | nil => exact Nat.le_refl 0
    | cons z front =>
      have first := (List.cons_prefix_cons.1 inS).1
      exact absurd (first.symm.trans (List.cons_prefix_cons.1 inT).1) differ
  | case3 s t limit others =>
    refine ⟨zero_mem_commonPrefixes, ?_⟩
    rintro _ ⟨limited, front, rfl, inS, inT⟩
    rcases exhausted others with rfl | rfl | rfl
    · exact inS.length_le
    · exact inT.length_le
    · exact limited

theorem commonSuffixes_eq (s t : List UInt8) (limit : Nat) :
    commonSuffixes s t limit = commonPrefixes s.reverse t.reverse limit := by
  ext length
  constructor
  · rintro ⟨limited, back, rfl, inS, inT⟩
    exact ⟨limited, back.reverse, List.length_reverse, List.reverse_prefix.2 inS,
      List.reverse_prefix.2 inT⟩
  · rintro ⟨limited, front, rfl, inS, inT⟩
    refine ⟨limited, front.reverse, List.length_reverse, ?_, ?_⟩
    · exact List.reverse_prefix.1 (by rwa [List.reverse_reverse])
    · exact List.reverse_prefix.1 (by rwa [List.reverse_reverse])

/-! ## Words -/

theorem testBit_trailingZeros {word : UInt64} {bits : Nat} (h : trailingZeros word bits < bits) :
    word.toNat.testBit (trailingZeros word bits) = true := by
  induction bits generalizing word with
  | zero => exact absurd h (Nat.not_lt_zero _)
  | succ bits ih =>
    simp only [trailingZeros] at h ⊢
    split
    · next odd =>
      have low := congrArg UInt64.toNat odd
      rw [UInt64.toNat_and, show UInt64.toNat 1 = 1 from rfl, Nat.and_one_is_mod] at low
      rw [Nat.testBit_zero]
      exact decide_eq_true low
    · next even =>
      rw [if_neg even] at h
      have shifted := ih (Nat.lt_of_succ_lt_succ h)
      rwa [UInt64.toNat_shiftRight, show UInt64.toNat 1 % 64 = 1 from rfl, Nat.testBit_shiftRight,
        Nat.add_comm 1] at shifted

theorem trailingZeros_lt {word : UInt64} (h : word ≠ 0) : trailingZeros word 64 < 64 := by
  refine Nat.lt_of_le_of_ne (trailingZeros_le word 64) fun all => h ?_
  refine UInt64.toNat_inj.1 (Nat.eq_of_testBit_eq fun n => ?_)
  rw [show UInt64.toNat 0 = 0 from rfl, Nat.zero_testBit]
  by_cases inWord : n < 64
  · exact testBit_of_trailingZeros (all ▸ inWord)
  · exact Nat.testBit_lt_two_pow
      (Nat.lt_of_lt_of_le word.toNat_lt (Nat.pow_le_pow_right (by omega) (by omega)))

theorem byte_ne_of_words {n : Nat} (inWord : n < 64)
    (differ : (wordAt a i ^^^ wordAt b j).toNat.testBit n = true) :
    a[i + n / 8]? ≠ b[j + n / 8]? := by
  intro same
  rw [UInt64.toNat_xor, Nat.testBit_xor, show n = 8 * (n / 8) + n % 8 by omega,
    testBit_wordAt a i (by omega) (by omega), testBit_wordAt b j (by omega) (by omega), same,
    Bool.xor_self] at differ
  cases differ

/-! ## Going forward and backward -/

theorem ends_forwardBytes (below : forwardBytes a b i j limit matched < limit) :
    a[i + forwardBytes a b i j limit matched]? ≠ b[j + forwardBytes a b i j limit matched]? := by
  fun_induction forwardBytes a b i j limit matched with
  | case1 matched room equal ih => exact ih below
  | case2 matched room differ => exact differ
  | case3 matched none => exact absurd below none

/-- The first byte that is not counted differs, whether it is found by its word or by itself. -/
theorem ends_forwardWords (below : forwardWords a b i j limit matched < limit) :
    a[i + forwardWords a b i j limit matched]? ≠ b[j + forwardWords a b i j limit matched]? := by
  fun_induction forwardWords a b i j limit matched with
  | case1 matched room difference equal ih => exact ih below
  | case2 matched room difference unequal =>
    have inWord := trailingZeros_lt unequal
    rw [← Nat.add_assoc, ← Nat.add_assoc]
    exact byte_ne_of_words inWord (testBit_trailingZeros inWord)
  | case3 matched short => exact ends_forwardBytes below

theorem ends_backwardBytes (below : backwardBytes a b i j limit matched < limit) :
    a[i - 1 - backwardBytes a b i j limit matched]? ≠
      b[j - 1 - backwardBytes a b i j limit matched]? := by
  fun_induction backwardBytes a b i j limit matched with
  | case1 matched room equal ih => exact ih below
  | case2 matched room differ => exact differ
  | case3 matched none => exact absurd below none

theorem endsAt_forward (a b : Array UInt8) (i j limit : Nat) :
    EndsAt (a.toList.drop i) (b.toList.drop j) limit (forward a b i j limit) := by
  have agrees : Agrees a b i j (min limit (min (a.size - i) (b.size - j))) 0
      (forward a b i j limit) := by
    by_cases room : i ≤ a.size ∧ j ≤ b.size
    · exact agrees_forwardWords (by omega) (by omega)
    · rw [forward, show min limit (min (a.size - i) (b.size - j)) = 0 by omega, forwardWords,
        if_neg (by omega), forwardBytes, if_neg (by omega)]
      exact agrees_none
  have bounded := agrees.bounded (Nat.zero_le _)
  refine ⟨?_, fun k below => ?_, fun limited inA inB => ?_⟩
  · simp only [List.length_drop, Array.length_toList]
    omega
  · rw [List.getElem?_drop, List.getElem?_drop, Array.getElem?_toList, Array.getElem?_toList]
    exact agrees.same k (Nat.zero_le _) below
  · simp only [List.length_drop, Array.length_toList] at inA inB
    rw [List.getElem?_drop, List.getElem?_drop, Array.getElem?_toList, Array.getElem?_toList]
    exact ends_forwardWords (show forward a b i j limit < _ by omega)

theorem getElem?_reverse_take (inside : i ≤ a.size) (before : k < i) :
    (a.toList.take i).reverse[k]? = a[i - 1 - k]? := by
  have length : (a.toList.take i).length = i := by
    rw [List.length_take, Array.length_toList, Nat.min_eq_left inside]
  rw [List.getElem?_reverse (by omega), length, List.getElem?_take_of_lt (by omega),
    Array.getElem?_toList]

theorem endsAt_backward (inA : i ≤ a.size) (inB : j ≤ b.size) (limit : Nat) :
    EndsAt (a.toList.take i).reverse (b.toList.take j).reverse limit (backward a b i j limit) := by
  obtain ⟨limited, inI, inJ, same⟩ := @backward_spec a b i j limit
  have lengths : (a.toList.take i).reverse.length = i ∧ (b.toList.take j).reverse.length = j := by
    simp only [List.length_reverse, List.length_take, Array.length_toList]
    omega
  refine ⟨⟨limited, by omega, by omega⟩, fun k below => ?_, fun limited inI inJ => ?_⟩
  · rw [getElem?_reverse_take inA (by omega), getElem?_reverse_take inB (by omega), same k below]
  · rw [getElem?_reverse_take inA (by omega), getElem?_reverse_take inB (by omega)]
    exact ends_backwardBytes (show backward a b i j limit < _ by omega)

/-- Two byte strings are compared within larger buffers: forward where each stands at the end of its
own, backward where each stands at the front. Counting by words and counting byte by byte come to the
same, and what they count is the longest prefix, or the longest suffix, that the two have in common,
as far as the limit allows. -/
theorem forward_backward_longest (s t p q : Array UInt8) (limit : Nat) :
    (forward (p ++ s) (q ++ t) p.size q.size limit = agreement s.toList t.toList limit ∧
      backward (s ++ p) (t ++ q) s.size t.size limit =
        agreement s.toList.reverse t.toList.reverse limit) ∧
    IsGreatest (commonPrefixes s.toList t.toList limit)
      (forward (p ++ s) (q ++ t) p.size q.size limit) ∧
    IsGreatest (commonSuffixes s.toList t.toList limit)
      (backward (s ++ p) (t ++ q) s.size t.size limit) := by
  have behind (front stretch : Array UInt8) :
      (front ++ stretch).toList.drop front.size = stretch.toList := by
    rw [Array.toList_append, ← Array.length_toList, List.drop_left]
  have before (stretch back : Array UInt8) :
      (stretch ++ back).toList.take stretch.size = stretch.toList := by
    rw [Array.toList_append, ← Array.length_toList, List.take_left]
  have ahead := (endsAt_forward (p ++ s) (q ++ t) p.size q.size limit).eq_agreement
  have back := (@endsAt_backward (s ++ p) (t ++ q) s.size t.size (by rw [Array.size_append]; omega)
    (by rw [Array.size_append]; omega) limit).eq_agreement
  rw [behind, behind] at ahead
  rw [before, before] at back
  refine ⟨⟨ahead, back⟩, ?_, ?_⟩
  · rw [ahead]
    exact isGreatest_agreement _ _ _
  · rw [back, commonSuffixes_eq]
    exact isGreatest_agreement _ _ _

end DeltaCoding.Match
