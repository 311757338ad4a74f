import CoinScript.Script
import CoinScript.Word

/-! # Scripts as text

Each word stands for some bytes of the script: a number and a quoted text for the push
of their value, raw bytes for themselves, and a name for its opcode.
-/
namespace CoinScript.Script

def wordBytes (word : List Char) : Except ParseFault Bytes := do
  match ← Word.ofChars word with
  | .number n => return (Instruction.ofInt n).encode
  | .raw bytes => return bytes
  | .quoted bytes => return (Instruction.ofData bytes).encode
  | .name name =>
    match Opcode.ofName? name with
    | some opcode => return (Instruction.ofOpcode opcode).encode
    | none => Word.refuse word

def ofText (text : List Char) : Except ParseFault Script := do
  let parts ← (Text.words text).mapM wordBytes
  return parts.flatten

end CoinScript.Script
