namespace DeltaCoding.Text

/-- The lower case hexadecimal digits of `n`, with zeros in front up to `width` digits. -/
def hex (width n : Nat) : String :=
  let digits := Nat.toDigits 16 n
  String.ofList (List.replicate (width - digits.length) '0' ++ digits)

/-- A byte as `0x` and two digits. -/
def hexByte (byte : UInt8) : String :=
  "0x" ++ hex 2 byte.toNat

def hexWord (word : Nat) : String :=
  "0x" ++ hex 8 word

end DeltaCoding.Text
