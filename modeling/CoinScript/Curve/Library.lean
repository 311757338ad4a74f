import CoinScript.Curve

/-! # Libraries for the curve

Keys and signatures ask three things of a library for the curve: the point of an encoding, whether
two numbers are admitted as the components of a signature, and whether admitted components sign a
digest. The standard library answers them with the arithmetic of the curve. It reads the forms of
SEC 1, and besides the abscissa of a point under a tag of its own.
-/
namespace CoinScript.Curve

structure Library where
  readPoint : Bytes → Option Point
  admits : Nat → Nat → Bool
  verifies : Nat → Nat → Bytes → Point → Bool

/-- A number that a component of a signature may be. -/
def isScalar (n : Nat) : Bool := 0 < n && n < order

/-- The point of a full form without its tag. -/
def ofCoordinates? (body : Bytes) : Option Point :=
  match Bytes.split? 32 body with
  | some (x, y) => point? (Bytes.toNatBE x) (Bytes.toNatBE y)
  | none => none

/-- The point of a tagged form: `02` and `03` give the parity of the ordinate, `05`
leaves it even, `04` gives the ordinate itself. -/
def ofTagged? (tag : UInt8) (body : Bytes) : Option Point :=
  if body.length = 32 ∧ (tag = 2 ∨ tag = 3 ∨ tag = 5) then
    lift? (Bytes.toNatBE body) (tag == 3)
  else if body.length = 64 ∧ tag = 4 then ofCoordinates? body
  else none

/-- Whether two scalars are a signature of the digest by the holder of the point. -/
def signs (r s : Nat) (digest : Bytes) (key : Point) : Bool :=
  let z := Bytes.toNatBE digest % order
  let w := inverse order s
  match combine? (z * w % order) (r * w % order) key with
  | some p => p.x % order = r
  | none => false

def Library.standard : Library where
  readPoint
    | [] => none
    | tag :: body => ofTagged? tag body
  admits r s := isScalar r && isScalar s
  verifies := signs

end CoinScript.Curve
