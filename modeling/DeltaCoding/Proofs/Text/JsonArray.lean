import DeltaCoding.Proofs.Text.Utf8

/-!
# JSON arrays of strings and numbers

`JsonArray.read` reads an array whose items are strings and natural numbers, without white space
between them. A string stands for bytes: `\u` with a code unit from 0080 to 00FF for the byte of that
number, and all else, written out or with one of JSON's escapes, for characters in UTF-8. So text that
is no such array is refused, as are commas at the ends, numbers with zeros in front, strings with bare
control characters, and surrogates without a partner.

A text stands for bytes inside a string (`StandsFor`), or lists items inside an array (`Lists`), if it
does so whatever is behind it. Both can be put together from parts.
-/

namespace DeltaCoding.JsonArray

inductive Item where
  | string (bytes : List UInt8)
  | number (n : Nat)
deriving DecidableEq

/-- A part of a string: a character, or a code unit of UTF-16 in hexadecimal. -/
inductive Part where
  | char (c : Char)
  | unit (n : Nat)

/-! ## Strings -/

def hexDigit? (c : Char) : Option Nat :=
  if '0' ≤ c && c ≤ '9' then some (c.toNat - '0'.toNat)
  else if 'a' ≤ c && c ≤ 'f' then some (10 + (c.toNat - 'a'.toNat))
  else if 'A' ≤ c && c ≤ 'F' then some (10 + (c.toNat - 'A'.toNat))
  else none

def codeUnit? (a b c d : Char) : Option Nat := do
  return (((← hexDigit? a) * 16 + (← hexDigit? b)) * 16 + (← hexDigit? c)) * 16 + (← hexDigit? d)

/-- The character that an escape of one letter stands for. -/
def escaped? (letter : Char) : Option Char :=
  match letter with
  | '"' => some '"'
  | '\\' => some '\\'
  | '/' => some '/'
  | 'b' => some '\x08'
  | 'f' => some '\x0C'
  | 'n' => some '\n'
  | 'r' => some '\r'
  | 't' => some '\t'
  | _ => none

/-- The parts of a string up to the quote that ends it, and the text behind the quote. -/
def readString : List Char → Option (List Part × List Char)
  | [] => none
  | '"' :: rest => some ([], rest)
  | '\\' :: 'u' :: a :: b :: c :: d :: rest => do
    let n ← codeUnit? a b c d
    let (parts, rest) ← readString rest
    return (.unit n :: parts, rest)
  | '\\' :: letter :: rest => do
    let c ← escaped? letter
    let (parts, rest) ← readString rest
    return (.char c :: parts, rest)
  | c :: rest =>
    if c.toNat < 0x20 then none
    else do
      let (parts, rest) ← readString rest
      return (.char c :: parts, rest)

/-- The character that two surrogates stand for. -/
def paired? (high low : Nat) : Option Char :=
  if 0xD800 ≤ high && high < 0xDC00 && 0xDC00 ≤ low && low < 0xE000 then
    some (Char.ofNat (0x10000 + (high - 0xD800) * 0x400 + (low - 0xDC00)))
  else none

/-- The bytes that a code unit stands for on its own. -/
def unitBytes? (n : Nat) : Option (List UInt8) :=
  if 0x80 ≤ n && n ≤ 0xFF then some [UInt8.ofNat n]
  else if 0xD800 ≤ n && n < 0xE000 then none
  else some (String.utf8EncodeChar (Char.ofNat n))

/-- The bytes that the parts of a string stand for. -/
def bytes? : List Part → Option (List UInt8)
  | [] => some []
  | .char c :: rest => do return String.utf8EncodeChar c ++ (← bytes? rest)
  | .unit high :: .unit low :: rest =>
    match paired? high low with
    | some c => do return String.utf8EncodeChar c ++ (← bytes? rest)
    | none => do return (← unitBytes? high) ++ (← bytes? (.unit low :: rest))
  | .unit n :: rest => do return (← unitBytes? n) ++ (← bytes? rest)

/-! ## Items -/

/-- A natural number without a zero in front, and the text behind it. -/
def readNumber (text : List Char) : Option (Nat × List Char) :=
  let digits := text.takeWhile Char.isDigit
  if digits = [] || digits.head? = some '0' && 1 < digits.length then none
  else some (Nat.ofDigitChars 10 digits 0, text.dropWhile Char.isDigit)

def readItem (text : List Char) : Option (Item × List Char) :=
  match readNumber text, text with
  | some (n, rest), _ => some (.number n, rest)
  | none, '"' :: rest => do
    let (parts, rest) ← readString rest
    return (.string (← bytes? parts), rest)
  | none, _ => none

theorem length_readString_le {text rest : List Char} {parts : List Part}
    (h : readString text = some (parts, rest)) : rest.length ≤ text.length := by
  fun_induction readString text generalizing parts rest with
  | case1 => cases h
  | case2 => cases h; simp
  | case3 a b c d rest' ih =>
    simp only [Option.bind_eq_bind, Option.bind_eq_some_iff] at h
    obtain ⟨n, _, ⟨parts', behind⟩, read, h⟩ := h
    cases h
    have := ih read
    simp only [List.length_cons]
    omega
  | case4 letter rest' notUnit ih =>
    simp only [Option.bind_eq_bind, Option.bind_eq_some_iff] at h
    obtain ⟨c, _, ⟨parts', behind⟩, read, h⟩ := h
    cases h
    have := ih read
    simp only [List.length_cons]
    omega
  | case5 => cases h
  | case6 c rest' notQuote notUnit notEscape printable ih =>
    simp only [Option.bind_eq_bind, Option.bind_eq_some_iff] at h
    obtain ⟨⟨parts', behind⟩, read, h⟩ := h
    cases h
    exact Nat.le_succ_of_le (ih read)

theorem length_readItem_le {text rest : List Char} {item : Item}
    (h : readItem text = some (item, rest)) : rest.length ≤ text.length := by
  unfold readItem at h
  split at h
  · next n behind read =>
    cases h
    simp only [readNumber] at read
    split at read
    · cases read
    · cases read
      exact (List.dropWhile_sublist _).length_le
  · simp only [Option.bind_eq_bind, Option.bind_eq_some_iff] at h
    obtain ⟨⟨parts, behind⟩, read, bytes, _, h⟩ := h
    cases h
    exact Nat.le_succ_of_le (length_readString_le read)
  · cases h

/-- Items with commas between them, and the bracket that ends the array and the text. -/
def readItems (text : List Char) : Option (List Item) :=
  match _h : readItem text with
  | some (item, ',' :: rest) => do return item :: (← readItems rest)
  | some (item, [']']) => some [item]
  | _ => none
termination_by text.length
decreasing_by
  have := length_readItem_le _h
  simp only [List.length_cons] at this
  omega

/-- The items of a text that is an array. -/
def read : List Char → Option (List Item)
  | '[' :: rest => if rest = [']'] then some [] else readItems rest
  | _ => none

/-! ## Texts inside a string -/

/-- Inside a string the text stands for the bytes, whatever is behind it. -/
def StandsFor (text : List Char) (bytes : List UInt8) : Prop :=
  ∃ parts : List Part,
    (∀ rest, readString (text ++ rest) =
      (readString rest).map fun read => (parts ++ read.1, read.2)) ∧
    ∀ more, bytes? (parts ++ more) = (bytes? more).map (bytes ++ ·)

namespace StandsFor

variable {text text' : List Char} {bytes bytes' : List UInt8}

theorem nil : StandsFor [] [] :=
  ⟨[], fun rest => by simp, fun more => by simp⟩

theorem append (first : StandsFor text bytes) (second : StandsFor text' bytes') :
    StandsFor (text ++ text') (bytes ++ bytes') := by
  obtain ⟨parts, reads, makes⟩ := first
  obtain ⟨parts', reads', makes'⟩ := second
  refine ⟨parts ++ parts', fun rest => ?_, fun more => ?_⟩
  · rw [List.append_assoc, reads, reads', Option.map_map]
    simp only [Function.comp_def, List.append_assoc]
  · rw [List.append_assoc, makes, makes', Option.map_map]
    simp only [Function.comp_def, List.append_assoc]

theorem char {c : Char} (printable : 0x20 ≤ c.toNat) (notQuote : c ≠ '"') (notEscape : c ≠ '\\') :
    StandsFor [c] (String.utf8EncodeChar c) := by
  refine ⟨[.char c], fun rest => ?_, fun more => ?_⟩
  · rw [List.singleton_append, readString, if_neg (Nat.not_lt.mpr printable)]
    · cases readString rest <;> rfl
    · exact notQuote
    · exact fun _ _ _ _ _ same _ => notEscape same
    · exact fun _ _ same _ => notEscape same
  · rw [List.singleton_append, bytes?]
    cases bytes? more <;> rfl

theorem letter {letter c : Char} (stands : escaped? letter = some c) :
    StandsFor ['\\', letter] (String.utf8EncodeChar c) := by
  have notUnit : letter ≠ 'u' := by
    rintro rfl
    cases stands
  refine ⟨[.char c], fun rest => ?_, fun more => ?_⟩
  · rw [List.cons_append, List.singleton_append, readString, stands]
    · cases readString rest <;> rfl
    · exact fun _ _ _ _ _ same _ => notUnit same
  · rw [List.singleton_append, bytes?]
    cases bytes? more <;> rfl

/-- A code unit that stands for bytes on its own is no half of a pair. -/
theorem paired?_eq_none {n : Nat} (low : Nat) (stands : unitBytes? n = some bytes) :
    paired? n low = none := by
  rw [paired?, if_neg]
  rintro surrogate
  simp only [Bool.and_eq_true, decide_eq_true_eq] at surrogate
  rw [unitBytes?, if_neg (by simp; omega), if_pos (by simp; omega)] at stands
  cases stands

theorem bytes?_unit {n : Nat} (stands : unitBytes? n = some bytes) (more : List Part) :
    bytes? (.unit n :: more) = (bytes? more).map (bytes ++ ·) := by
  generalize whole : Part.unit n :: more = parts
  fun_cases bytes? parts with
  | case1 => cases whole
  | case2 c rest => cases whole
  | case3 high low rest c pair =>
    cases whole
    rw [paired?_eq_none low stands] at pair
    cases pair
  | case4 high low rest noPair =>
    cases whole
    rw [stands]
    cases bytes? (.unit low :: rest) <;> rfl
  | case5 unit rest alone =>
    cases whole
    rw [stands]
    cases bytes? more <;> rfl

theorem unit {a b c d : Char} {n : Nat} (number : codeUnit? a b c d = some n)
    (stands : unitBytes? n = some bytes) : StandsFor ['\\', 'u', a, b, c, d] bytes := by
  refine ⟨[.unit n], fun rest => ?_, bytes?_unit stands⟩
  simp only [List.cons_append, List.nil_append]
  rw [readString, number]
  cases readString rest <;> rfl

theorem readItem (stands : StandsFor text bytes) (rest : List Char) :
    readItem ('"' :: (text ++ '"' :: rest)) = some (.string bytes, rest) := by
  obtain ⟨parts, reads, makes⟩ := stands
  have made : bytes? parts = some bytes := by
    simpa [bytes?] using makes []
  have notNumber : readNumber ('"' :: (text ++ '"' :: rest)) = none := rfl
  simp [JsonArray.readItem, notNumber, reads, readString, made]

end StandsFor

/-! ## Texts inside an array -/

/-- Numbers do not go on here. -/
def Ended (rest : List Char) : Prop :=
  ∀ c ∈ rest.head?, c.isDigit = false

theorem eq_zero_of_head?_toDigits {n : Nat} (h : (Nat.toDigits 10 n).head? = some '0') : n = 0 := by
  induction n using Nat.strongRecOn with
  | ind n ih =>
    by_cases small : n < 10
    · rw [Nat.toDigits_of_lt_base small, List.head?_cons, Option.some_inj] at h
      have digit : ∀ n < 10, Nat.digitChar n = '0' → n = 0 := by decide
      exact digit n small h
    · rw [Nat.toDigits_of_base_le (by decide) (Nat.le_of_not_lt small),
        List.head?_append_of_ne_nil _ Nat.toDigits_ne_nil] at h
      have := ih (n / 10) (by omega) h
      omega

theorem readNumber_toDigits (n : Nat) {rest : List Char} (ended : Ended rest) :
    readNumber (Nat.toDigits 10 n ++ rest) = some (n, rest) := by
  have digits : ∀ c ∈ Nat.toDigits 10 n, c.isDigit = true := fun c mem =>
    Nat.isDigit_of_mem_toDigits (by decide) (by decide) mem
  have stops : rest.takeWhile Char.isDigit = [] ∧ rest.dropWhile Char.isDigit = rest := by
    cases rest with
    | nil => exact ⟨rfl, rfl⟩
    | cons c rest =>
      have notDigit : ¬ c.isDigit = true := by simp [ended c rfl]
      exact ⟨List.takeWhile_cons_of_neg notDigit, List.dropWhile_cons_of_neg notDigit⟩
  have noZero : ¬ ((Nat.toDigits 10 n).head? = some '0' ∧ 1 < (Nat.toDigits 10 n).length) := by
    rintro ⟨zero, long⟩
    rw [eq_zero_of_head?_toDigits zero] at long
    exact absurd long (by decide)
  simp only [readNumber, List.takeWhile_append_of_pos digits, List.dropWhile_append_of_pos digits,
    stops, List.append_nil, Nat.ofDigitChars_toDigits (by decide : 1 < 10) (by decide)]
  rw [if_neg]
  simpa [Nat.toDigits_ne_nil] using noZero

theorem readItem_toDigits (n : Nat) {rest : List Char} (ended : Ended rest) :
    readItem (Nat.toDigits 10 n ++ rest) = some (.number n, rest) := by
  simp only [readItem, readNumber_toDigits n ended]

/-- The items behind the first one, if there are more. -/
def readMore : List Char → Option (List Item)
  | ',' :: rest => readItems rest
  | rest => if rest = [']'] then some [] else none

theorem readItems_of_readItem {text rest : List Char} {item : Item}
    (h : readItem text = some (item, rest)) :
    readItems text = (readMore rest).map (item :: ·) := by
  rw [readItems]
  split
  · next item' rest' h' =>
    rw [h] at h'
    cases h'
    rw [readMore]
    cases readItems rest' <;> rfl
  · next h' =>
    rw [h] at h'
    cases h'
    rfl
  · next noComma noEnd =>
    rw [readMore, if_neg]
    · rfl
    · rintro rfl
      exact noEnd _ h
    · rintro rest' rfl
      exact noComma _ _ h

/-- In an array the text lists the items, whatever is behind it. -/
def Lists (text : List Char) (items : List Item) : Prop :=
  ∀ rest, Ended rest → readItems (text ++ rest) = (readMore rest).map (items ++ ·)

namespace Lists

variable {text text' : List Char} {items items' : List Item}

theorem string {bytes : List UInt8} (stands : StandsFor text bytes) :
    Lists ('"' :: (text ++ ['"'])) [.string bytes] := by
  intro rest _
  rw [List.cons_append, List.append_assoc, List.singleton_append,
    readItems_of_readItem (stands.readItem rest)]
  rfl

theorem number (n : Nat) : Lists (Nat.toDigits 10 n) [.number n] := by
  intro rest ended
  rw [readItems_of_readItem (readItem_toDigits n ended)]
  rfl

theorem comma (first : Lists text items) (second : Lists text' items') :
    Lists (text ++ ',' :: text') (items ++ items') := by
  intro rest ended
  rw [List.append_assoc, List.cons_append, first _ (by simp [Ended])]
  rw [readMore, second rest ended, Option.map_map]
  simp only [Function.comp_def, List.append_assoc]

theorem read (lists : Lists text items) : read ('[' :: (text ++ [']'])) = some items := by
  have reads := lists [']'] (by simp [Ended])
  have notEmpty : text ++ [']'] ≠ [']'] := by
    rintro empty
    rw [empty] at reads
    have none : readItems [']'] = none := by cbv
    rw [none] at reads
    cases reads
  rw [JsonArray.read, if_neg notEmpty, reads]
  simp [readMore]

end Lists

/-- Escapes for a letter, for a byte and for a pair of surrogates. -/
example : read "[\"\\n\\u00c3é\\ud83d\\ude00\",3,70]".toList =
    some [.string [0x0A, 0xC3, 0xC3, 0xA9, 0xF0, 0x9F, 0x98, 0x80], .number 3, .number 70] := by
  cbv

end DeltaCoding.JsonArray
