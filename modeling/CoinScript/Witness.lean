import CoinScript.Number
import CoinScript.Word

/-! # Witnesses

The items that an input supplies beside its signature script, bottom of the stack first.
On the wire they are counted and each carries its length.
-/
namespace CoinScript

abbrev Witness := List Bytes

namespace Witness

def ofHexItems (items : List String) : Except ParseFault Witness :=
  items.mapM fun text => (Hex.decode text).mapError .itemHex

def wordItem (word : List Char) : Except ParseFault Bytes := do
  match ← Word.ofChars word with
  | .number n => return Number.encode n
  | .raw bytes => return bytes
  | .quoted bytes => return bytes
  | .name _ => Word.refuse word

def ofText (text : List Char) : Except ParseFault Witness := (Text.words text).mapM wordItem

/-- Every item takes at least its length byte, so a count above what is left is refused
before any item is read. -/
def read : Reader ParseFault Witness := do
  let count ← Wire.varInt.mapError .wire
  let left ← Reader.remaining
  if left < count then .fail .tooShort
  else (Wire.varBytes.mapError .wire).times count

def encode (w : Witness) : Bytes := VarInt.encode w.length ++ w.flatMap Wire.encodeVarBytes

/-- The items as a bracketed list of quoted hexadecimal texts. -/
def listing (w : Witness) : String :=
  "[" ++ ", ".intercalate (w.map fun item => "\"" ++ Hex.encode item ++ "\"") ++ "]"

end Witness

end CoinScript
