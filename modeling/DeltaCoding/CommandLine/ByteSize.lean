import DeltaCoding.Text.Blank

namespace DeltaCoding.CommandLine

/-- Why a text is not a byte size. The text is given without the blanks around it. -/
inductive SizeError where
  | empty
  | noDigits (text : String)
  | invalidDigit (text : String)
  | numberTooLarge (text : String)
  | overflow (text : String)
  | zero
deriving DecidableEq

namespace SizeError

def message : SizeError → String
  | empty => "empty size string"
  | noDigits text => s!"invalid size '{text}': cannot parse integer from empty string"
  | invalidDigit text => s!"invalid size '{text}': invalid digit found in string"
  | numberTooLarge text => s!"invalid size '{text}': number too large to fit in target type"
  | overflow text => s!"size overflow: '{text}'"
  | zero => "size must be greater than zero"

end SizeError

namespace ByteSize

def bound : Nat := UInt64.size

def unit? (c : Char) : Option Nat :=
  if c = 'k' ∨ c = 'K' then some 1024
  else if c = 'm' ∨ c = 'M' then some (1024 * 1024)
  else if c = 'g' ∨ c = 'G' then some (1024 * 1024 * 1024)
  else none

def splitUnit (text : List Char) : List Char × Nat :=
  match text.reverse with
  | [] => (text, 1)
  | last :: front =>
    match unit? last with
    | some factor => (front.reverse, factor)
    | none => (text, 1)

/-- Reads decimal digits behind a number worth `value`. The first fault decides. -/
def parseDigits (text : String) (value : Nat) : List Char → Except SizeError Nat
  | [] => .ok value
  | c :: rest =>
    if c.isDigit then
      let value := value * 10 + (c.toNat - '0'.toNat)
      if value < bound then parseDigits text value rest else .error (.numberTooLarge text)
    else .error (.invalidDigit text)

def parseNumber (text : String) : List Char → Except SizeError Nat
  | [] => .error (.noDigits text)
  | ['+'] => .error (.invalidDigit text)
  | '+' :: digits => parseDigits text 0 digits
  | digits => parseDigits text 0 digits

def parse (argument : String) : Except SizeError Nat :=
  match Text.trim argument.toList with
  | [] => .error .empty
  | chars =>
    let text := String.ofList chars
    let (number, factor) := splitUnit chars
    match parseNumber text (Text.trim number) with
    | .error error => .error error
    | .ok value => if value * factor < bound then .ok (value * factor) else .error (.overflow text)

def parsePositive (argument : String) : Except SizeError Nat :=
  match parse argument with
  | .ok 0 => .error .zero
  | result => result

end ByteSize

end DeltaCoding.CommandLine
