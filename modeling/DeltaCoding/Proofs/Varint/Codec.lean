import DeltaCoding.Proofs.Varint.Words
import DeltaCoding.Tape

namespace DeltaCoding

theorem Tape.read_stopped {α : Type} {step : Parser α} {t : Tape} {stop : ParseStop}
    (h : (t.read step).1 = .error stop) : (t.read step).2 = t := by
  unfold read at h ⊢
  split at h
  · cases h
  · rfl

namespace Varint

variable {n : Nat} {bytes : List UInt8} {field : Field}

/-! ## Writers -/

/-- `bytes` is the form of `n` that takes the fewest bytes. -/
structure Shortest (n : Nat) (bytes : List UInt8) : Prop where
  terminated : Terminated bytes
  value : digitsValue bytes = n
  length : bytes.length = encodedLength n
  /-- The first of several digits is not zero. -/
  leading : bytes.head? ≠ some 0x80
  fewest : ∀ other, Terminated other → digitsValue other = n → bytes.length ≤ other.length

theorem digitsFrom_lt (value : Nat) (bytes : List UInt8) :
    digitsFrom value bytes < (value + 1) * 128 ^ bytes.length := by
  induction bytes generalizing value with
  | nil =>
    rw [digitsFrom_nil, List.length_nil, Nat.pow_zero, Nat.mul_one]
    exact Nat.lt_succ_self value
  | cons digit rest ih =>
    refine Nat.lt_of_lt_of_le (ih (pushDigit value digit)) ?_
    rw [List.length_cons, Nat.pow_succ', ← Nat.mul_assoc]
    apply Nat.mul_le_mul_right
    unfold pushDigit
    omega

theorem encodedLength_le_length (terminated : Terminated bytes) (value : digitsValue bytes = n) :
    encodedLength n ≤ bytes.length := by
  have small := digitsFrom_lt 0 bytes
  rw [← digitsValue, value, Nat.zero_add, Nat.one_mul, show 128 = 2 ^ 7 from rfl, ← Nat.pow_mul]
    at small
  obtain ⟨front, last, rfl, -⟩ := terminated
  rw [List.length_append, List.length_singleton] at small ⊢
  unfold encodedLength
  by_cases zero : n = 0
  · subst zero
    rw [Nat.log2_zero]
    omega
  · have bits := (Nat.log2_lt zero).2 small
    omega

theorem shortest_encode (n : Nat) : Shortest n (encode n) where
  terminated := terminated_encode n
  value := digitsValue_encode n
  length := length_encode n
  leading := head?_encode n
  fewest other terminated value := by
    rw [length_encode]
    exact encodedLength_le_length terminated value

/-! ## Readers -/

/-- The step reads numbers up to `maxValue` from forms of at most `maxLength` bytes. -/
structure Lawful (p : Parser Nat) (maxLength maxValue : Nat) : Prop where
  reads : ∀ n, n ≤ maxValue → p.Reads (encode n) n
  refuses : ∀ n, maxValue < n → ∀ c c', c.Takes (encode n) c' →
    p c = .error (.malformed .invalidVarint)
  /-- Nothing is read but a short form of a small number, and every one of them. -/
  accepts : ∀ c n c', p c = .ok (n, c') ↔ ∃ bytes, Terminated bytes ∧ bytes.length ≤ maxLength ∧
    digitsValue bytes = n ∧ n ≤ maxValue ∧ c.Takes bytes c'
  stops : ∀ c stop, p c = .error stop → stop = .needMoreData ∨ stop = .malformed .invalidVarint
  keeps : ∀ (t : Tape) stop, (t.read p).1 = .error stop → (t.read p).2 = t
  /-- More bytes change nothing but a call for more. -/
  final : ∀ c more, p c ≠ .error .needMoreData →
    p (c.extend more) = (p c).map fun r => (r.1, r.2.extend more)

theorem final_of_local {p : Parser Nat} (h : p.Local) {c : Cursor} (more : List UInt8)
    (waits : p c ≠ .error .needMoreData) :
    p (c.extend more) = (p c).map fun r => (r.1, r.2.extend more) := by
  cases here : p c with
  | ok r => exact h.extend_ok here more
  | error stop => exact h.extend_error here (fun more => waits (here.trans (by rw [more]))) more

theorem lawful_parse (room : ∀ n, n ≤ field.maxValue → encodedLength n ≤ field.maxLength) :
    Lawful (parse field) field.maxLength field.maxValue where
  reads n bound := reads_encode bound (room n bound)
  refuses _ large _ _ takes := refuses_encode large takes
  accepts _ _ _ := parse_eq_ok_iff
  stops _ _ := parseDigits_eq_error
  keeps _ _ := Tape.read_stopped
  final _ more := final_of_local (local_parse field) more

theorem encodedLength_le_int64 (h : n ≤ maxInt64) : encodedLength n ≤ 9 :=
  Nat.le_trans (encodedLength_mono h) (by decide)

theorem parseUInt32_refuses (large : maxUInt32 < n) {c c' : Cursor}
    (takes : c.Takes (encode n) c') : parseUInt32 c = .error (.malformed .invalidVarint) := by
  by_cases held : n ≤ maxInt64
  · rw [parseUInt32, Parser.bind_ok (reads_encode held (encodedLength_le_int64 held) c c' takes),
      if_pos large]
    rfl
  · exact Parser.bind_error (@refuses_encode int64 n (Nat.not_le.1 held) _ _ takes)

theorem lawful_parseUInt32 : Lawful parseUInt32 9 maxUInt32 where
  reads _ bound := reads_encode_uint32 bound
  refuses _ large _ _ takes := parseUInt32_refuses large takes
  accepts c n c' := by
    rw [parseUInt32_eq_ok_iff, parseInt64, parse_eq_ok_iff]
    constructor
    · rintro ⟨⟨bytes, terminated, length, value, -, takes⟩, bound⟩
      exact ⟨bytes, terminated, length, value, bound, takes⟩
    · rintro ⟨bytes, terminated, length, value, bound, takes⟩
      exact ⟨⟨bytes, terminated, length, value, Nat.le_trans bound (by decide), takes⟩, bound⟩
  stops _ _ := parseUInt32_eq_error
  keeps _ _ := Tape.read_stopped
  final _ more := final_of_local local_parseUInt32 more

/-- Numbers are written in their shortest form, and each field reads the numbers that it can hold, from
any of their forms that are not too long for it. Machine words hold what comes up on the way. -/
theorem codec_law :
    (∀ v : UInt64, Shortest v.toNat (encode v.toNat) ∧
      Word.encode? v = some (encode v.toNat)) ∧
    Lawful parseInt32 5 (2 ^ 31 - 1) ∧
    Lawful parseInt64 9 (2 ^ 63 - 1) ∧
    Lawful parseUInt32 9 (2 ^ 32 - 1) ∧
    (∀ c, Word.parse int32 c = (parseInt32 c).map fun r => (.ofNat r.1, r.2)) ∧
    (∀ c, Word.parse int64 c = (parseInt64 c).map fun r => (.ofNat r.1, r.2)) := by
  refine ⟨fun v => ⟨shortest_encode _, Word.encode?_eq v⟩, ?_, ?_, lawful_parseUInt32, ?_, ?_⟩
  · exact lawful_parse fun _ bound => encodedLength_le_int32 bound
  · exact lawful_parse fun _ bound => encodedLength_le_int64 bound
  · exact Word.parse_eq (by decide) (by decide)
  · exact Word.parse_eq (by decide) (by decide)

end Varint

end DeltaCoding
