import DeltaCoding.Text.Utf8
import Mathlib.Data.List.Basic

namespace DeltaCoding.Text

theorem toList_loop (bytes : ByteArray) (i : Nat) (before : List UInt8) :
    ByteArray.toList.loop bytes i before = before.reverse ++ bytes.data.toList.drop i := by
  fun_induction ByteArray.toList.loop bytes i before with
  | case1 i before inside ih =>
    have inside' : i < bytes.data.toList.length := by simpa using inside
    rw [ih, List.drop_eq_getElem_cons inside']
    simp [ByteArray.get!, inside]
  | case2 i before outside =>
    rw [List.drop_eq_nil_of_le (by simpa using Nat.le_of_not_lt outside)]
    simp

theorem toList_toUTF8 (text : String) :
    text.toUTF8.toList = text.toList.flatMap String.utf8EncodeChar := by
  have encoded : text.toUTF8 = (text.toList.flatMap String.utf8EncodeChar).toByteArray := by
    rw [String.toUTF8_eq_toByteArray, ← String.utf8Encode_toList, List.utf8Encode]
  rw [encoded, ByteArray.toList, toList_loop, List.toList_data_toByteArray]
  rfl

namespace Utf8

variable {first second third fourth : UInt8} {n : Nat}

theorem toNat_ofNat (valid : n.isValidChar) : (Char.ofNat n).toNat = n := by
  rw [Char.ofNat, dif_pos valid]
  rfl

theorem exists_char_of_toNat (valid : n.isValidChar) : ∃ c : Char, c.val.toNat = n :=
  ⟨Char.ofNat n, toNat_ofNat valid⟩

theorem utf8EncodeChar_ascii {c : Char} (ascii : c.toNat < 0x80) :
    String.utf8EncodeChar c = [UInt8.ofNat c.toNat] := by
  have small : c.val.toNat ≤ 0x7F := Nat.le_of_lt_succ ascii
  rw [String.utf8EncodeChar]
  simp only [if_pos small]
  rfl

theorem utf8EncodeChar_ofNat {byte : UInt8} (ascii : byte.toNat < 0x80) :
    String.utf8EncodeChar (Char.ofNat byte.toNat) = [byte] := by
  have same : (Char.ofNat byte.toNat).toNat = byte.toNat :=
    toNat_ofNat (.inl (Nat.lt_trans ascii (by decide)))
  rw [utf8EncodeChar_ascii (same.symm ▸ ascii), same, UInt8.ofNat_toNat]

theorem isContinuation_iff {byte : UInt8} :
    isContinuation byte = true ↔ 0x80 ≤ byte.toNat ∧ byte.toNat ≤ 0xBF := by
  simp only [isContinuation, Bool.and_eq_true, decide_eq_true_eq, UInt8.le_iff_toNat_le]
  rfl

theorem ofNat_eq {byte : UInt8} (h : n = byte.toNat) : UInt8.ofNat n = byte := by
  rw [h, UInt8.ofNat_toNat]

theorem exists_char_two (low : 0xC2 ≤ first.toNat) (high : first.toNat ≤ 0xDF)
    (more : isContinuation second = true) :
    ∃ c : Char, String.utf8EncodeChar c = [first, second] ∧ 0x80 ≤ c.toNat := by
  rw [isContinuation_iff] at more
  obtain ⟨c, value⟩ := @exists_char_of_toNat
    ((first.toNat - 0xC0) * 64 + (second.toNat - 0x80)) (by rw [Nat.isValidChar]; omega)
  refine ⟨c, ?_, by rw [Char.toNat, value]; omega⟩
  rw [String.utf8EncodeChar]
  simp only [value]
  rw [if_neg (by omega), if_pos (by omega), ofNat_eq (by omega : _ = first.toNat),
    ofNat_eq (by omega : _ = second.toNat)]

theorem exists_char_three (low : 0xE0 ≤ first.toNat) (high : first.toNat ≤ 0xEF)
    (next : isContinuation second = true) (more : isContinuation third = true)
    (shortest : first.toNat = 0xE0 → 0xA0 ≤ second.toNat)
    (noSurrogate : first.toNat = 0xED → second.toNat ≤ 0x9F) :
    ∃ c : Char, String.utf8EncodeChar c = [first, second, third] ∧ 0x80 ≤ c.toNat := by
  rw [isContinuation_iff] at next more
  obtain ⟨c, value⟩ := @exists_char_of_toNat
    ((first.toNat - 0xE0) * 4096 + (second.toNat - 0x80) * 64 + (third.toNat - 0x80))
    (by rw [Nat.isValidChar]; omega)
  refine ⟨c, ?_, by rw [Char.toNat, value]; omega⟩
  rw [String.utf8EncodeChar]
  simp only [value]
  rw [if_neg (by omega), if_neg (by omega), if_pos (by omega), ofNat_eq (by omega : _ = first.toNat),
    ofNat_eq (by omega : _ = second.toNat), ofNat_eq (by omega : _ = third.toNat)]

theorem exists_char_four (low : 0xF0 ≤ first.toNat) (high : first.toNat ≤ 0xF4)
    (next : isContinuation second = true) (more : isContinuation third = true)
    (last : isContinuation fourth = true)
    (shortest : first.toNat = 0xF0 → 0x90 ≤ second.toNat)
    (inRange : first.toNat = 0xF4 → second.toNat ≤ 0x8F) :
    ∃ c : Char, String.utf8EncodeChar c = [first, second, third, fourth] ∧ 0x80 ≤ c.toNat := by
  rw [isContinuation_iff] at next more last
  obtain ⟨c, value⟩ := @exists_char_of_toNat
    ((first.toNat - 0xF0) * 262144 + (second.toNat - 0x80) * 4096 + (third.toNat - 0x80) * 64 +
      (fourth.toNat - 0x80)) (by rw [Nat.isValidChar]; omega)
  refine ⟨c, ?_, by rw [Char.toNat, value]; omega⟩
  rw [String.utf8EncodeChar]
  simp only [value]
  rw [if_neg (by omega), if_neg (by omega), if_neg (by omega), ofNat_eq (by omega : _ = first.toNat),
    ofNat_eq (by omega : _ = second.toNat), ofNat_eq (by omega : _ = third.toNat),
    ofNat_eq (by omega : _ = fourth.toNat)]

/-! ## Characters at the front -/

/-- What the first byte says about the second, for each number of bytes behind the two. The cases
are those of the table of first bytes, in its order. -/
theorem secondByte?_cases {low high : UInt8} {more : Nat}
    (h : secondByte? first = some (low, high, more)) :
    (0x80 ≤ low.toNat ∧ high.toNat ≤ 0xBF) ∧
      ((more = 0 ∧ 0xC2 ≤ first.toNat ∧ first.toNat ≤ 0xDF) ∨
        (more = 1 ∧ 0xE0 ≤ first.toNat ∧ first.toNat ≤ 0xEF ∧
          (first.toNat = 0xE0 → 0xA0 ≤ low.toNat) ∧ (first.toNat = 0xED → high.toNat ≤ 0x9F)) ∨
        (more = 2 ∧ 0xF0 ≤ first.toNat ∧ first.toNat ≤ 0xF4 ∧
          (first.toNat = 0xF0 → 0x90 ≤ low.toNat) ∧ (first.toNat = 0xF4 → high.toNat ≤ 0x8F))) := by
  simp only [secondByte?, Bool.and_eq_true, decide_eq_true_eq, UInt8.le_iff_toNat_le,
    ← UInt8.toNat_inj, UInt8.reduceToNat] at h
  split at h
  · cases h
    exact ⟨by decide, .inl ⟨rfl, by omega, by omega⟩⟩
  split at h
  · cases h
    exact ⟨by decide, .inr (.inl ⟨rfl, by omega, by omega, fun _ => by decide, by omega⟩)⟩
  split at h
  · cases h
    exact ⟨by decide, .inr (.inl ⟨rfl, by omega, by omega, by omega, fun _ => by decide⟩)⟩
  split at h
  · cases h
    exact ⟨by decide, .inr (.inl ⟨rfl, by omega, by omega, by omega, by omega⟩)⟩
  split at h
  · cases h
    exact ⟨by decide, .inr (.inr ⟨rfl, by omega, by omega, fun _ => by decide, by omega⟩)⟩
  split at h
  · cases h
    exact ⟨by decide, .inr (.inr ⟨rfl, by omega, by omega, by omega, by omega⟩)⟩
  split at h
  · cases h
    exact ⟨by decide, .inr (.inr ⟨rfl, by omega, by omega, by omega, fun _ => by decide⟩)⟩
  · cases h

theorem encodedLength?_ascii {rest : List UInt8} (ascii : first < 0x80) :
    encodedLength? (first :: rest) = some 1 := by
  unfold encodedLength?
  exact if_pos ascii

theorem le_of_encodedLength?_ne_one {rest : List UInt8}
    (h : encodedLength? (first :: rest) ≠ some 1) : 0x80 ≤ first.toNat :=
  Nat.le_of_not_lt fun ascii => h (encodedLength?_ascii (UInt8.lt_iff_toNat_lt.mpr ascii))

theorem encodedLength?_cases {rest : List UInt8} {length : Nat}
    (h : encodedLength? (first :: rest) = some length) (long : 0x80 ≤ first.toNat) :
    ∃ low high more second behind, secondByte? first = some (low, high, more) ∧
      rest.take (more + 1) = second :: behind ∧ length = more + 2 ∧
      low.toNat ≤ second.toNat ∧ second.toNat ≤ high.toNat ∧
      behind.length = more ∧ behind.all isContinuation = true := by
  have notAscii : ¬ first < 0x80 := fun ascii =>
    Nat.not_lt.mpr long (UInt8.lt_iff_toNat_lt.mp ascii)
  unfold encodedLength? at h
  simp only [if_neg notAscii] at h
  split at h
  · next low high more second behind found =>
    simp only [Bool.and_eq_true, decide_eq_true_eq, beq_iff_eq, UInt8.le_iff_toNat_le] at h
    split at h
    · next fits =>
      cases h
      exact ⟨low, high, more, second, behind.take more, found, List.take_succ_cons,
        Nat.add_comm .., fits.1.1.1, fits.1.1.2, fits.1.2, fits.2⟩
    · cases h
  · cases h

theorem exists_char_of_encodedLength? {rest : List UInt8} {length : Nat}
    (h : encodedLength? (first :: rest) = some length) (long : 0x80 ≤ first.toNat) :
    ∃ c : Char, String.utf8EncodeChar c = first :: rest.take (length - 1) ∧ 0x80 ≤ c.toNat := by
  obtain ⟨low, high, more, second, behind, found, front, rfl, lower, upper, counted, going⟩ :=
    encodedLength?_cases h long
  rw [show more + 2 - 1 = more + 1 from rfl, front]
  obtain ⟨⟨lowest, highest⟩, first'⟩ := secondByte?_cases found
  have next : isContinuation second = true := isContinuation_iff.mpr (by omega)
  rcases first' with ⟨rfl, bounds⟩ | ⟨rfl, least, most, shortest, noSurrogate⟩ |
    ⟨rfl, least, most, shortest, inRange⟩
  · rw [List.eq_nil_of_length_eq_zero counted]
    exact exists_char_two bounds.1 bounds.2 next
  · obtain ⟨third, rfl⟩ := List.length_eq_one_iff.mp counted
    simp only [List.all_cons, List.all_nil, Bool.and_true] at going
    exact exists_char_three least most next going (fun edge => by have := shortest edge; omega)
      (fun edge => by have := noSurrogate edge; omega)
  · obtain ⟨third, fourth, rfl⟩ := List.length_eq_two.mp counted
    simp only [List.all_cons, List.all_nil, Bool.and_true, Bool.and_eq_true] at going
    exact exists_char_four least most next going.1 going.2
      (fun edge => by have := shortest edge; omega) (fun edge => by have := inRange edge; omega)

end Utf8

end DeltaCoding.Text
