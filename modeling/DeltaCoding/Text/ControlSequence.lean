/-!
# Control sequences in text

Text for a terminal holds control sequences, which colour it and are not read as text. `strip` drops
them, and with them every other control character but white space, so that the text can go to a
file. Text that is quoted inside a message may hold sequences too, and some that do not end; those
go on in the message behind it.

* `State.next` says what a character does to a sequence that has begun;
* `Scanner` tells the characters of the text from those of sequences;
* `strip_eq_self`: text without control characters stays as it is;
* `isShown_of_mem_strip`: nothing else is left of any text.
-/

namespace DeltaCoding.Text.ControlSequence

/-- How far a sequence has come. -/
inductive State where
  /-- No sequence has begun. -/
  | ground
  /-- Behind an escape character. -/
  | escape
  /-- Behind an escape character and others that ask for one more. -/
  | escapeIntermediate
  /-- In front of the letter that ends a sequence with parameters. -/
  | parameters
  /-- At the front of a string for a device. -/
  | deviceEntry
  | deviceParameters
  | deviceIntermediate
  /-- In a string that ends with the byte 9C. -/
  | string
  /-- In a command to the system, which ends with a bell. -/
  | systemCommand
deriving DecidableEq

def within (low high : Nat) (c : Char) : Bool :=
  low ≤ c.toNat && c.toNat ≤ high

def holdsTerminator (c : Char) : Bool :=
  (String.utf8EncodeChar c).contains 0x9C

namespace State

/-- Where a character leads that is not text. Cancel, substitute and escape end every sequence. -/
def next (s : State) (c : Char) : State :=
  if c = '\x18' || c = '\x1A' then ground
  else if c = '\x1B' then escape
  else
    match s with
    | ground => ground
    | escape =>
      if within 0x20 0x2F c then escapeIntermediate
      else if c = '[' then parameters
      else if c = ']' then systemCommand
      else if c = 'P' then deviceEntry
      else if c = 'X' || c = '^' || c = '_' then string
      else if within 0x30 0x7E c then ground
      else escape
    | escapeIntermediate => if within 0x30 0x7E c then ground else escapeIntermediate
    | parameters => if within 0x40 0x7E c then ground else parameters
    | deviceEntry =>
      if within 0x20 0x2F c then deviceIntermediate
      else if within 0x30 0x3F c then deviceParameters
      else if within 0x40 0x7E c then string
      else deviceEntry
    | deviceParameters =>
      if within 0x20 0x2F c then deviceIntermediate
      else if within 0x3C 0x7E c then string
      else deviceParameters
    | deviceIntermediate => if within 0x30 0x7E c then string else deviceIntermediate
    | string => if holdsTerminator c then ground else string
    | systemCommand => if c = '\x07' then ground else systemCommand

end State

def isBlankControl (c : Char) : Bool :=
  c = '\t' || c = '\n' || c = '\x0C' || c = '\r'

def isShown (c : Char) : Bool :=
  within 0x20 0x7E c || isBlankControl c || 0x80 ≤ c.toNat

/-- The text goes on with this character. White space is text in the front of a sequence too. -/
def State.reveals (s : State) (c : Char) : Bool :=
  match s with
  | .ground => isShown c
  | .escape | .escapeIntermediate | .parameters => isBlankControl c
  | _ => false

/-- Reads text with sequences in it. Text inside a sequence does not end it: the sequence goes on
with the next control character. -/
structure Scanner where
  state : State := .ground
  /-- The last character was text. -/
  inText : Bool := false
deriving DecidableEq

namespace Scanner

def keeps (s : Scanner) (c : Char) : Bool :=
  s.inText && isShown c || s.state.reveals c

/-- Takes up a character. One beyond ASCII ends a sequence if it is text. -/
def take (s : Scanner) (c : Char) : Scanner :=
  if s.keeps c then { state := if c.toNat < 0x80 then s.state else .ground, inText := true }
  else { state := s.state.next c, inText := false }

def strip (s : Scanner) : List Char → List Char
  | [] => []
  | c :: rest => if s.keeps c then c :: (s.take c).strip rest else (s.take c).strip rest

end Scanner

def strip (text : String) : String :=
  String.ofList (Scanner.strip {} text.toList)

/-! ## What is left -/

theorem isShown_of_reveals {s : State} {c : Char} (h : s.reveals c = true) : isShown c = true := by
  cases s <;> simp_all [State.reveals, isShown]

theorem isShown_of_keeps {s : Scanner} {c : Char} (h : s.keeps c = true) : isShown c = true := by
  rcases (Bool.or_eq_true _ _).mp h with h | h
  · exact ((Bool.and_eq_true _ _).mp h).2
  · exact isShown_of_reveals h

/-- What is left holds no control characters but white space. -/
theorem isShown_of_mem_strip {s : Scanner} {text : List Char} {c : Char}
    (h : c ∈ s.strip text) : isShown c = true := by
  induction text generalizing s with
  | nil => simp [Scanner.strip] at h
  | cons d rest ih =>
    rw [Scanner.strip] at h
    split at h
    · next kept =>
      rcases List.mem_cons.mp h with rfl | h
      · exact isShown_of_keeps kept
      · exact ih h
    · exact ih h

/-- Text without control characters stays as it is. -/
theorem strip_eq_self {s : Scanner} (text : List Char) (h : ∀ c ∈ text, isShown c = true)
    (start : s.inText = true ∨ s.state = .ground) : s.strip text = text := by
  induction text generalizing s with
  | nil => rfl
  | cons c rest ih =>
    have shown : isShown c = true := h c (List.mem_cons_self ..)
    have kept : s.keeps c = true := by
      rcases start with inText | ground
      · simp [Scanner.keeps, inText, shown]
      · simp [Scanner.keeps, ground, State.reveals, shown]
    rw [Scanner.strip, if_pos kept, ih (fun d hd => h d (List.mem_cons_of_mem _ hd))]
    left
    simp [Scanner.take, kept]

end DeltaCoding.Text.ControlSequence
