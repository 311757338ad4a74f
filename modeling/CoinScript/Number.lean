import CoinScript.Fault

/-! # Script numbers

A number is an integer of any size. On the stack it is a little-endian byte string
whose very last bit is the sign; zero is the empty string. Operands are read under a
length limit, and on request only the shortest form is accepted.
-/
namespace CoinScript.Number

/-- Puts the sign into the top bit of a magnitude, in a byte of its own if that bit is taken. -/
def withSign (negative : Bool) : Bytes → Bytes
  | [] => []
  | [top] =>
    let sign : UInt8 := if negative then 0x80 else 0
    if top < 0x80 then [top + sign] else [top, sign]
  | b :: rest => b :: withSign negative rest

/-- The shortest form of a number. -/
def encode (n : Int) : Bytes := withSign (n < 0) (Bytes.ofNat n.natAbs)

/-- The value of a byte string without its sign bit. -/
def magnitude : Bytes → Nat
  | [] => 0
  | [top] => top.toNat % 128
  | b :: rest => b.toNat + 256 * magnitude rest

def isNegative (s : Bytes) : Bool :=
  match s.getLast? with
  | some top => 0x80 ≤ top
  | none => false

def decode (s : Bytes) : Int :=
  if isNegative s then -(magnitude s : Int) else magnitude s

/-- The last byte is needed: it is not empty but for the sign, unless the byte before it
uses its own top bit. -/
def isMinimal (s : Bytes) : Bool :=
  match s.reverse with
  | [] => true
  | [top] => top % 0x80 ≠ 0
  | top :: next :: _ => top % 0x80 ≠ 0 || 0x80 ≤ next

def checkMinimal (s : Bytes) : Except Fault Unit :=
  if isMinimal s then .ok () else .error (.paddedNumber s)

/-- What is accepted as an operand: at most so many bytes, and on request only the shortest
form. -/
structure Format where
  limit : Nat
  minimal : Bool
deriving DecidableEq, Repr

/-- Reads an operand. A string that is too long is refused for its length first. -/
def read (format : Format) (s : Bytes) : Except Fault Int :=
  if format.limit < s.length then .error (.longNumber s format.limit)
  else if format.minimal && !isMinimal s then .error (.paddedNumber s)
  else .ok (decode s)

/-- The nearest number that has `limit` as the exclusive bound of its size: from `-limit` up
to, but not including, `limit`. -/
def clamp (limit : Int) (n : Int) : Int := max (-limit) (min n (limit - 1))

/-- The nearest number of 32 bits. -/
def clamp32 (n : Int) : Int := clamp 0x80000000 n

/-- The nearest number of 64 bits. -/
def clamp64 (n : Int) : Int := clamp 0x8000000000000000 n

end CoinScript.Number
