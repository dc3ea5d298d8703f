import DeltaCoding.Error

/-!
# Decoder settings

A decoder may be told how much it may produce and whether windows may refer to what earlier windows
have produced. Every window's declared length is checked before any of its instructions is carried
out.
-/

namespace DeltaCoding

/-- Limits and policy of a decoder. -/
structure DecoderConfig where
  /-- The largest target window accepted. -/
  maxTargetWindow : Nat := 64 * 1024 * 1024
  /-- The largest target accepted, all windows together. -/
  maxTargetFile : Nat := 64 * 1024 * 1024
  /-- Windows may copy from the target of earlier windows. -/
  allowTarget : Bool := true
  /-- The size of the whole target, where it is known beforehand. -/
  plannedTargetFile : Option Nat := none
deriving DecidableEq, Inhabited

namespace DecoderConfig

/-- Checks the target length of a window behind `decoded` bytes of earlier windows. The sum is a number
here. It need not fit a word of 64 bits, if the limit is close to the largest one. -/
def checkLength (config : DecoderConfig) (decoded targetLength : Nat) : Except FormatError Unit :=
  let total := decoded + targetLength
  if targetLength > config.maxTargetWindow then
    .error (.limitExceeded .targetWindow targetLength config.maxTargetWindow)
  else if total > config.maxTargetFile then
    .error (.limitExceeded .targetFile total config.maxTargetFile)
  else
    match config.plannedTargetFile with
    | some planned =>
      if total > planned then .error (.limitExceeded .plannedTargetFile total planned) else .ok ()
    | none => .ok ()

end DecoderConfig

end DeltaCoding
