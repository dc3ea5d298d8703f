import DeltaCoding.Proofs.Varint

/-!
# The forms of a number

A number has many forms, since zeros may stand in front of its digits. What a reader takes is said
here without the reader: a form is a run of bytes that are all marked as continued, and one byte that
is not (`Terminated`), and its value is that of its digits in base 128 (`digitsValue`). A field reads
exactly the forms that are short enough and whose values are small enough (`parse_eq_ok_iff`), however
many zeros they begin with. The form that is written is one of them (`terminated_encode`,
`digitsValue_encode`), and it begins with no zero (`head?_encode`).
-/

namespace DeltaCoding.Varint

/-- A byte that another digit follows. -/
def Continued (digit : UInt8) : Prop :=
  128 ≤ digit.toNat

/-- The last byte, and no other, is without the mark of continuation. -/
def Terminated (bytes : List UInt8) : Prop :=
  ∃ front last, bytes = front ++ [last] ∧ (∀ digit ∈ front, Continued digit) ∧ ¬ Continued last

def pushDigit (value : Nat) (digit : UInt8) : Nat :=
  value * 128 + digit.toNat % 128

/-- The value of digits in base 128, the most significant first, behind digits worth `value`. -/
def digitsFrom (value : Nat) (digits : List UInt8) : Nat :=
  digits.foldl pushDigit value

def digitsValue (digits : List UInt8) : Nat :=
  digitsFrom 0 digits

variable {maxValue left value n : Nat} {bytes : List UInt8} {digit : UInt8} {c c' : Cursor}

@[simp] theorem digitsFrom_nil : digitsFrom value [] = value := rfl

@[simp] theorem digitsFrom_cons :
    digitsFrom value (digit :: bytes) = digitsFrom (pushDigit value digit) bytes := rfl

theorem digitsFrom_append {more : List UInt8} :
    digitsFrom value (bytes ++ more) = digitsFrom (digitsFrom value bytes) more :=
  List.foldl_append ..

theorem le_digitsFrom : value ≤ digitsFrom value bytes := by
  induction bytes generalizing value with
  | nil => exact Nat.le_refl value
  | cons digit rest ih =>
    have grown : value ≤ pushDigit value digit := by
      unfold pushDigit
      omega
    exact Nat.le_trans grown ih

theorem terminated_singleton (h : ¬ Continued digit) : Terminated [digit] :=
  ⟨[], digit, rfl, (fun _ mem => by cases mem), h⟩

theorem terminated_cons (h : Continued digit) : Terminated (digit :: bytes) ↔ Terminated bytes := by
  constructor
  · rintro ⟨front, last, split, marked, ends⟩
    cases front with
    | nil =>
      cases split
      exact absurd h ends
    | cons first front =>
      cases split
      exact ⟨front, last, rfl, fun d mem => marked d (List.mem_cons_of_mem _ mem), ends⟩
  · rintro ⟨front, last, rfl, marked, ends⟩
    exact ⟨digit :: front, last, rfl, List.forall_mem_cons.2 ⟨h, marked⟩, ends⟩

theorem terminated_cons_of_not (h : ¬ Continued digit) :
    Terminated (digit :: bytes) ↔ bytes = [] := by
  constructor
  · rintro ⟨front, last, split, marked, -⟩
    cases front with
    | nil =>
      cases split
      rfl
    | cons first front =>
      cases split
      exact absurd (marked digit (List.mem_cons_self ..)) h
  · rintro rfl
    exact terminated_singleton h

/-! ## What a field reads -/

/-- The digits behind a number read so far are read up to the one that ends it, and none of them takes
the number over the bound. -/
theorem parseDigits_eq_ok_iff : parseDigits maxValue left value c = .ok (n, c') ↔
    ∃ bytes, Terminated bytes ∧ bytes.length ≤ left ∧ digitsFrom value bytes = n ∧ n ≤ maxValue ∧
      c.Takes bytes c' := by
  constructor
  · intro h
    induction left generalizing value c with
    | zero => cases h
    | succ left ih =>
      obtain ⟨digit, c₁, read, h⟩ := Parser.bind_eq_ok h
      simp only at h
      split at h
      · cases h
      · next small =>
        have taken := Parser.takes_byte read
        split at h
        · next ends =>
          cases h
          refine ⟨[digit], terminated_singleton (Nat.not_le.2 ends), ?_, rfl, by omega, taken⟩
          exact Nat.succ_le_succ (Nat.zero_le _)
        · next continues =>
          obtain ⟨bytes, terminated, length, digits, bound, takes⟩ := ih h
          have marked : Continued digit := Nat.not_lt.1 continues
          exact ⟨digit :: bytes, (terminated_cons marked).2 terminated, Nat.succ_le_succ length,
            digits, bound, taken.trans takes⟩
  · rintro ⟨bytes, terminated, length, digits, bound, takes⟩
    -- By the bytes of the form; each digit is within the bound since the digits behind it are not
    -- negative.
    induction bytes generalizing left value c with
    | nil =>
      obtain ⟨front, last, split, -⟩ := terminated
      cases front <;> cases split
    | cons digit rest ih =>
      obtain ⟨left, rfl⟩ : ∃ k, left = k + 1 := ⟨left - 1, by rw [List.length_cons] at length; omega⟩
      obtain ⟨c₁, first, others⟩ := @Cursor.Takes.split _ _ [digit] _ takes
      have small : value * 128 + digit.toNat % 128 ≤ maxValue :=
        Nat.le_trans (digits ▸ le_digitsFrom) bound
      rw [parseDigits, Parser.bind_ok (Parser.reads_byte digit c c₁ first)]
      simp only [if_neg (Nat.not_lt.2 small)]
      by_cases marked : Continued digit
      · rw [if_neg (Nat.not_lt.2 marked)]
        exact ih ((terminated_cons marked).1 terminated) (Nat.le_of_succ_le_succ length) digits
          others
      · obtain rfl := (terminated_cons_of_not marked).1 terminated
        obtain rfl := others.unique (.refl c₁)
        rw [if_pos (Nat.not_le.1 marked), ← digits]
        rfl

theorem parse_eq_ok_iff {field : Field} : parse field c = .ok (n, c') ↔
    ∃ bytes, Terminated bytes ∧ bytes.length ≤ field.maxLength ∧ digitsValue bytes = n ∧
      n ≤ field.maxValue ∧ c.Takes bytes c' :=
  parseDigits_eq_ok_iff

theorem parseUInt32_eq_ok_iff : parseUInt32 c = .ok (n, c') ↔
    parseInt64 c = .ok (n, c') ∧ n ≤ maxUInt32 := by
  constructor
  · intro h
    obtain ⟨value, c₁, read, checked⟩ := Parser.bind_eq_ok h
    split at checked
    · cases checked
    · next inside =>
      cases checked
      exact ⟨read, Nat.not_lt.1 inside⟩
  · rintro ⟨read, bound⟩
    rw [parseUInt32, Parser.bind_ok (show parse int64 c = .ok (n, c') from read),
      if_neg (Nat.not_lt.2 bound)]
    rfl

/-- A number field that stops either waits for more digits or finds fault with those it has. -/
theorem parseDigits_eq_error {stop : ParseStop}
    (h : parseDigits maxValue left value c = .error stop) :
    stop = .needMoreData ∨ stop = .malformed .invalidVarint := by
  induction left generalizing value c with
  | zero =>
    cases h
    exact .inr rfl
  | succ left ih =>
    cases first : Parser.byte c with
    | error stop' =>
      rw [parseDigits, Parser.bind_error first] at h
      cases h
      unfold Parser.byte at first
      split at first
      · cases first
        exact .inl rfl
      · cases first
    | ok r =>
      rw [parseDigits, Parser.bind_ok first] at h
      split at h
      · cases h
        exact .inr rfl
      · split at h
        · cases h
        · exact ih h

theorem parseUInt32_eq_error {stop : ParseStop} (h : parseUInt32 c = .error stop) :
    stop = .needMoreData ∨ stop = .malformed .invalidVarint := by
  cases read : parse int64 c with
  | error stop' =>
    rw [parseUInt32, Parser.bind_error read] at h
    cases h
    exact parseDigits_eq_error read
  | ok r =>
    rw [parseUInt32, Parser.bind_ok read] at h
    split at h
    · cases h
      exact .inr rfl
    · cases h

/-! ## The form that is written -/

@[simp] theorem continued_zero (tail : List UInt8) : continued 0 tail = tail := by
  rw [continued, if_pos rfl]

theorem toNat_continued (n : Nat) : (UInt8.ofNat (128 + n % 128)).toNat = 128 + n % 128 := by
  rw [UInt8.toNat_ofNat']
  omega

theorem toNat_last (n : Nat) : (UInt8.ofNat (n % 128)).toNat = n % 128 := by
  rw [UInt8.toNat_ofNat']
  omega

theorem continued_of_ne_zero (h : n ≠ 0) (tail : List UInt8) :
    continued n tail = continued (n / 128) (UInt8.ofNat (128 + n % 128) :: tail) := by
  rw [continued, if_neg h]

theorem continued_snoc (h : n ≠ 0) :
    continued n [] = continued (n / 128) [] ++ [UInt8.ofNat (128 + n % 128)] := by
  rw [continued_of_ne_zero h, continued_append]

theorem mem_continued (n : Nat) : ∀ digit ∈ continued n [], Continued digit := by
  induction n using Nat.strongRecOn with
  | ind n ih =>
    intro digit mem
    by_cases zero : n = 0
    · rw [zero, continued_zero] at mem
      cases mem
    · rw [continued_snoc zero, List.mem_append, List.mem_singleton] at mem
      rcases mem with before | rfl
      · exact ih (n / 128) (by omega) digit before
      · rw [Continued, toNat_continued]
        exact Nat.le_add_right 128 _

theorem digitsValue_continued (n : Nat) : digitsValue (continued n []) = n := by
  induction n using Nat.strongRecOn with
  | ind n ih =>
    by_cases zero : n = 0
    · rw [zero, continued_zero]
      rfl
    · have quotient := ih (n / 128) (by omega)
      rw [digitsValue] at quotient
      rw [digitsValue, continued_snoc zero, digitsFrom_append, quotient, digitsFrom_cons,
        digitsFrom_nil, pushDigit, toNat_continued]
      omega

theorem encode_eq (n : Nat) : encode n = continued (n / 128) [] ++ [UInt8.ofNat (n % 128)] := by
  rw [encode, continued_append]

theorem terminated_encode (n : Nat) : Terminated (encode n) := by
  refine ⟨_, _, encode_eq n, mem_continued _, ?_⟩
  rw [Continued, toNat_last]
  omega

theorem digitsValue_encode (n : Nat) : digitsValue (encode n) = n := by
  have quotient := digitsValue_continued (n / 128)
  rw [digitsValue] at quotient
  rw [digitsValue, encode_eq, digitsFrom_append, quotient, digitsFrom_cons, digitsFrom_nil, pushDigit,
    toNat_last]
  omega

theorem head?_digits {n : Nat} {last : UInt8} (something : n ≠ 0 ∨ last ≠ 128) :
    (continued n [] ++ [last]).head? ≠ some 128 := by
  induction n using Nat.strongRecOn generalizing last with
  | ind n ih =>
    by_cases zero : n = 0
    · rw [zero, continued_zero]
      simpa [zero] using something
    · -- The digits in front of the last one are those of the quotient and one more.
      have next : n / 128 ≠ 0 ∨ UInt8.ofNat (128 + n % 128) ≠ 128 := by
        by_cases quotient : n / 128 = 0
        · refine .inr fun digit => zero ?_
          have value := congrArg UInt8.toNat digit
          rw [toNat_continued, show (128 : UInt8).toNat = 128 from rfl] at value
          omega
        · exact .inl quotient
      have front := ih (n / 128) (by omega) next
      rw [continued_snoc zero, List.head?_append]
      cases first : (continued (n / 128) [] ++ [UInt8.ofNat (128 + n % 128)]).head? with
      | none => simp at first
      | some digit =>
        rw [Option.some_or, ← first]
        exact front

theorem head?_encode (n : Nat) : (encode n).head? ≠ some 128 := by
  rw [encode_eq]
  refine head?_digits (.inr fun digit => ?_)
  have value := congrArg UInt8.toNat digit
  rw [toNat_last, show (128 : UInt8).toNat = 128 from rfl] at value
  omega

end DeltaCoding.Varint
