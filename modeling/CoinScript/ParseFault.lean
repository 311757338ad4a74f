import CoinScript.Hex
import CoinScript.Wire

/-! # Faults of reading scripts, witnesses and rule names -/
namespace CoinScript

inductive ParseFault where
  | scriptHex (fault : Hex.Fault)
  | itemHex (fault : Hex.Fault)
  | tooShort
  | tooBig
  | unknownOpcode (name : String)
  | unknownRule (name : String)
  | badToken (token : String)
  | wire (fault : Wire.Fault)
deriving DecidableEq, Repr

def ParseFault.message : ParseFault → String
  | scriptHex fault => s!"invalid hex: {fault.message}"
  | itemHex fault => s!"hex decode error: {fault.message}"
  | tooShort => "not enough data"
  | tooBig => "data too big"
  | unknownOpcode name => s!"unknown opcode: {name}"
  | unknownRule name => s!"unknown flag: {name}"
  | badToken token => s!"invalid token: {token}"
  | wire fault => s!"primitives error: {fault.message}"

end CoinScript
