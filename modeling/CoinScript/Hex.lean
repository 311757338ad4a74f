import CoinScript.Bytes
import CoinScript.Text

/-! # Hexadecimal text

Bytes are written with lower-case digits and read in either case. Reading works on the
bytes of the text: an odd number of them is refused first, then the first byte that is
no digit is named together with its position.
-/
namespace CoinScript.Hex

def digit (n : UInt8) : Char :=
  Char.ofNat (if n < 10 then 48 + n.toNat else 87 + n.toNat)

def digitsOf (b : UInt8) : List Char := [digit (b / 16), digit (b % 16)]

def encode (s : Bytes) : String := String.ofList (s.flatMap digitsOf)

/-- The digits of a number without leading zeros. -/
def ofNat (n : Nat) : String := String.ofList (Nat.toDigits 16 n)

def digitValue? (b : UInt8) : Option UInt8 :=
  if 48 ≤ b ∧ b ≤ 57 then some (b - 48)
  else if 97 ≤ b ∧ b ≤ 102 then some (b - 87)
  else if 65 ≤ b ∧ b ≤ 70 then some (b - 55)
  else none

inductive Fault where
  | oddLength
  | badDigit (byte : UInt8) (position : Nat)
deriving DecidableEq, Repr

/-- Pairs of digits from `position` on; a byte left over at the end is not looked at. -/
def decodePairs : Nat → Bytes → Except Fault Bytes
  | position, hi :: lo :: rest =>
    match digitValue? hi, digitValue? lo with
    | none, _ => .error (.badDigit hi position)
    | some _, none => .error (.badDigit lo (position + 1))
    | some h, some l => (decodePairs (position + 2) rest).map ((h * 16 + l) :: ·)
  | _, _ => .ok []

def decodeBytes (text : Bytes) : Except Fault Bytes :=
  if text.length % 2 = 1 then .error .oddLength else decodePairs 0 text

def decode (text : String) : Except Fault Bytes := decodeBytes (Text.utf8 text.toList)

/-- A byte as a quoted character: controls and the blank and invisible ones of the upper
half are escaped, so that a message stays on one readable line. -/
def quoted (b : UInt8) : String :=
  let body :=
    if b = 0 then "\\0"
    else if b = 9 then "\\t"
    else if b = 10 then "\\n"
    else if b = 13 then "\\r"
    else if b = 39 then "\\'"
    else if b = 92 then "\\\\"
    else if b < 32 ∨ (127 ≤ b ∧ b ≤ 160) ∨ b = 173 then
      "\\u\x7b" ++ ofNat b.toNat ++ "\x7d"
    else String.singleton (Char.ofNat b.toNat)
  "'" ++ body ++ "'"

def Fault.message : Fault → String
  | .oddLength => "Odd number of digits"
  | .badDigit byte position => s!"Invalid character {quoted byte} at position {position}"

/-- The bytes as a bracketed list, two digits each. -/
def bracketed (s : Bytes) : String :=
  "[" ++ ", ".intercalate (s.map fun b => String.ofList (digitsOf b)) ++ "]"

end CoinScript.Hex
