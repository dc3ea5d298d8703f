import DeltaCoding.Proofs.Parsing

/-!
# Reading back written numbers

Every number is read back from its shortest form by each field that it fits, wherever the form
stands. Going through the digits, a reader has at each moment the value of the digits so far, which
is what is left to write at the same moment going the other way.
-/

namespace DeltaCoding.Varint

/-! ## Reading is local -/

theorem local_parseDigits (maxValue left value : Nat) :
    (parseDigits maxValue left value).Local := by
  induction left generalizing value with
  | zero => exact .malformed _
  | succ left ih =>
    apply Parser.local_byte.bind
    intro digit
    exact .ite (.malformed _) (.ite (.pure _) (ih _))

theorem local_parse (field : Field) : (parse field).Local :=
  local_parseDigits _ _ _

theorem local_parseInt32 : parseInt32.Local :=
  local_parse int32

theorem local_parseUInt32 : parseUInt32.Local :=
  (local_parse int64).bind fun _ => .ite (.malformed _) (.pure _)

theorem answers_parseDigits (maxValue left value : Nat) :
    (parseDigits maxValue left value).Answers := by
  induction left generalizing value with
  | zero => exact .malformed _
  | succ left ih =>
    apply Parser.answers_byte.bind
    intro digit
    exact .ite (.malformed _) (.ite (.pure _) (ih _))

theorem answers_parseInt32 : parseInt32.Answers :=
  answers_parseDigits _ _ _

theorem answers_parseUInt32 : parseUInt32.Answers :=
  (answers_parseDigits _ _ _).bind fun _ => .ite (.malformed _) (.pure _)

theorem parseDigits_le {maxValue left value n : Nat} {c c' : Cursor}
    (h : parseDigits maxValue left value c = .ok (n, c')) : n ≤ maxValue := by
  induction left generalizing value c with
  | zero => cases h
  | succ left ih =>
    obtain ⟨digit, c₁, _, h⟩ := Parser.bind_eq_ok h
    simp only at h
    split at h
    · cases h
    · next small =>
      split at h
      · cases h; omega
      · exact ih h

theorem parseInt32_le {n : Nat} {c c' : Cursor} (h : parseInt32 c = .ok (n, c')) :
    n ≤ maxInt32 :=
  parseDigits_le h

theorem parseUInt32_le {n : Nat} {c c' : Cursor} (h : parseUInt32 c = .ok (n, c')) :
    n ≤ maxUInt32 := by
  obtain ⟨value, c₁, -, checked⟩ := Parser.bind_eq_ok h
  split at checked
  · cases checked
  · next inside =>
    cases checked
    omega

/-! ## Lengths -/

theorem continued_append (n : Nat) (tail : List UInt8) :
    continued n tail = continued n [] ++ tail := by
  -- Strong induction, since the digits of n are those of n / 128 and one more.
  induction n using Nat.strongRecOn generalizing tail with
  | ind n ih =>
    unfold continued
    split
    · rfl
    · rw [ih (n / 128) (by omega), ih (n / 128) (by omega) [_], List.append_assoc]
      rfl

theorem log2_div_128 {n : Nat} (h : 128 ≤ n) : (n / 128).log2 + 7 = n.log2 := by
  symm
  rw [Nat.log2_eq_iff (by omega)]
  have quotient : n / 128 ≠ 0 := by omega
  have low := Nat.log2_self_le quotient
  have high := @Nat.lt_log2_self (n / 128)
  rw [Nat.pow_add]
  refine ⟨by omega, ?_⟩
  rw [show (n / 128).log2 + 7 + 1 = (n / 128).log2 + 1 + 7 by omega, Nat.pow_add]
  omega

theorem length_continued (n : Nat) :
    (continued n []).length = if n = 0 then 0 else encodedLength n := by
  unfold encodedLength
  induction n using Nat.strongRecOn with
  | ind n ih =>
    unfold continued
    split
    · rfl
    · next nonzero =>
      rw [continued_append, List.length_append, ih (n / 128) (by omega)]
      by_cases small : n < 128
      · have : n.log2 < 7 := (Nat.log2_lt nonzero).2 (by omega)
        rw [if_pos (by omega), List.length_singleton]
        omega
      · have := @log2_div_128 n (by omega)
        rw [if_neg (by omega), List.length_singleton]
        omega

@[simp] theorem length_encode (n : Nat) : (encode n).length = encodedLength n := by
  unfold encode
  rw [continued_append, List.length_append, length_continued, List.length_singleton]
  by_cases small : n < 128
  · have : n.log2 < 7 := by
      by_cases zero : n = 0
      · subst zero; decide
      · exact (Nat.log2_lt zero).2 (by omega)
    rw [if_pos (by omega), encodedLength]
    omega
  · have := @log2_div_128 n (by omega)
    rw [if_neg (by omega), encodedLength, encodedLength]
    omega

theorem encodedLength_pos (n : Nat) : 0 < encodedLength n := by
  unfold encodedLength; omega

theorem encodedLength_mono {m n : Nat} (h : m ≤ n) : encodedLength m ≤ encodedLength n := by
  simp only [encodedLength]
  by_cases zero : m = 0
  · subst zero
    simp
  · have bits : m.log2 ≤ n.log2 :=
      (Nat.le_log2 (by omega)).2 (Nat.le_trans (Nat.log2_self_le zero) h)
    omega

theorem encodedLength_le {n : Nat} (h : n ≤ maxUInt32) : encodedLength n ≤ 5 :=
  Nat.le_trans (encodedLength_mono h) (by decide)

theorem encodedLength_le_int32 {n : Nat} (h : n ≤ maxInt32) : encodedLength n ≤ 5 :=
  encodedLength_le (Nat.le_trans h (by decide))

theorem toNat_le_maxUInt32 (n : UInt32) : n.toNat ≤ maxUInt32 :=
  Nat.le_of_lt_succ n.toNat_lt

/-! ## Round trip -/

/-- Behind the continued digits of `n` the reader has the value `n`, and has used up as many of its
digits as there were. -/
theorem parseDigits_continued {maxValue left n : Nat} {tail : List UInt8} {c c' : Cursor}
    (value : n ≤ maxValue) (enough : (continued n []).length ≤ left)
    (takes : c.Takes (continued n tail) c') :
    ∃ c₁, c₁.Takes tail c' ∧
      parseDigits maxValue left 0 c =
        parseDigits maxValue (left - (continued n []).length) n c₁ := by
  induction n using Nat.strongRecOn generalizing tail with
  | ind n ih =>
    unfold continued at takes enough ⊢
    split at takes
    · next zero =>
      subst zero
      exact ⟨c, takes, rfl⟩
    · next nonzero =>
      rw [if_neg nonzero, continued_append, List.length_append, List.length_singleton] at enough ⊢
      obtain ⟨c₁, takes₁, run⟩ := ih (n / 128) (by omega) (by omega) (by omega) takes
      refine ⟨⟨c₁.offset + 1, tail ++ c'.rest⟩, ⟨rfl, ?_⟩, ?_⟩
      · simp only [takes₁.2, List.length_cons]; omega
      · rw [run, show left - (continued (n / 128) []).length =
          left - ((continued (n / 128) []).length + 1) + 1 by omega, parseDigits]
        have first : Parser.byte c₁ = .ok (.ofNat (128 + n % 128), ⟨c₁.offset + 1, tail ++ c'.rest⟩) :=
          Parser.reads_byte _ _ _ ⟨takes₁.1, rfl⟩
        rw [Parser.bind_ok first]
        have digit : (UInt8.ofNat (128 + n % 128)).toNat = 128 + n % 128 := by
          rw [UInt8.toNat_ofNat']; omega
        simp only [digit]
        rw [if_neg (by omega), if_neg (by omega),
          show n / 128 * 128 + (128 + n % 128) % 128 = n by omega]

theorem reads_encode {field : Field} {n : Nat} (value : n ≤ field.maxValue)
    (length : encodedLength n ≤ field.maxLength) : (parse field).Reads (encode n) n := by
  intro c c' takes
  have split := length_encode n
  unfold encode at split takes
  rw [continued_append, List.length_append, List.length_singleton] at split
  obtain ⟨c₁, takes₁, run⟩ := @parseDigits_continued field.maxValue field.maxLength (n / 128) _ _ _
    (by omega) (by omega) takes
  rw [parse, run, show field.maxLength - (continued (n / 128) []).length =
    field.maxLength - encodedLength n + 1 by omega, parseDigits,
    Parser.bind_ok (Parser.reads_byte _ _ _ takes₁)]
  have digit : (UInt8.ofNat (n % 128)).toNat = n % 128 := by
    rw [UInt8.toNat_ofNat']; omega
  simp only [digit]
  rw [show n / 128 * 128 + n % 128 % 128 = n by omega, if_neg (by omega), if_pos (by omega)]
  rfl

theorem reads_encode_int32 {n : Nat} (h : n ≤ maxInt32) : parseInt32.Reads (encode n) n :=
  reads_encode h (encodedLength_le_int32 h)

theorem reads_encode_uint32 {n : Nat} (h : n ≤ maxUInt32) : parseUInt32.Reads (encode n) n := by
  refine (@reads_encode int64 n ?_ ?_).bind_pure fun c => ?_
  · exact Nat.le_trans h (by decide)
  · exact Nat.le_trans (encodedLength_le h) (by decide)
  · rw [if_neg (Nat.not_lt.2 h)]
    rfl

/-! ## Numbers that are too large -/

theorem parseDigits_refuses {maxValue maxValue' left left' value n : Nat} {c c' : Cursor}
    (read : parseDigits maxValue' left' value c = .ok (n, c')) (fewer : left ≤ left')
    (large : maxValue < n) :
    parseDigits maxValue left value c = .error (.malformed .invalidVarint) := by
  induction left' generalizing left value c with
  | zero => cases read
  | succ left' ih =>
    cases left with
    | zero => rfl
    | succ left =>
      obtain ⟨digit, c₁, first, read⟩ := Parser.bind_eq_ok read
      rw [parseDigits, Parser.bind_ok first]
      simp only at read ⊢
      by_cases beyond : value * 128 + digit.toNat % 128 > maxValue
      · rw [if_pos beyond]
        rfl
      · rw [if_neg beyond]
        split at read
        · cases read
        · split at read
          · cases read
            omega
          · next continues =>
            rw [if_neg continues]
            exact ih read (Nat.le_of_succ_le_succ fewer)

theorem refuses_encode {field : Field} {n : Nat} (large : field.maxValue < n) {c c' : Cursor}
    (takes : c.Takes (encode n) c') : parse field c = .error (.malformed .invalidVarint) := by
  have read := @reads_encode ⟨max field.maxLength (encodedLength n), n⟩ n (Nat.le_refl n)
    (Nat.le_max_right _ _) c c' takes
  exact parseDigits_refuses read (Nat.le_max_left _ _) large

end DeltaCoding.Varint
