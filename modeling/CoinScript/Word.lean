import CoinScript.ParseFault
import CoinScript.Text

/-! # Words of the text form

Scripts and witnesses are written as words: a decimal number, raw bytes as `0x` and
hexadecimal digits, a text between single quotes, or a name.
-/
namespace CoinScript

inductive Word where
  | number (n : Int)
  | raw (bytes : Bytes)
  | quoted (bytes : Bytes)
  | name (text : String)
deriving DecidableEq, Repr

namespace Word

/-- The largest magnitude of a number that is written in decimal. -/
def maxNumber : Int := 0xffffffff

def refuse {α : Type} (word : List Char) : Except ParseFault α :=
  .error (.badToken (String.ofList word))

def ofChars (word : List Char) : Except ParseFault Word :=
  if Text.isDecimal word then
    let n := Text.decimalValue word
    if -maxNumber ≤ n ∧ n ≤ maxNumber then .ok (.number n) else refuse word
  else match word with
    | '0' :: 'x' :: digits =>
      match Hex.decodeBytes (Text.utf8 digits) with
      | .ok bytes => if digits = [] then refuse word else .ok (.raw bytes)
      | .error _ => refuse word
    | _ =>
      match Text.unquote? word with
      | some inner => .ok (.quoted (Text.utf8 inner))
      | none => .ok (.name (String.ofList word))

end Word

end CoinScript
