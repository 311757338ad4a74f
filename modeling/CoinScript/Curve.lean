import CoinScript.Bytes

/-! # The curve secp256k1

Points of `y² = x³ + 7` over the field of order `fieldOrder`, which form a group of
prime order `order`. Coordinates are numbers below the field order. Multiplication runs
in Jacobian coordinates, where `(x, y, z)` stands for `(x / z², y / z³)` and `z = 0` for
the point at infinity.
-/
namespace CoinScript.Curve

def fieldOrder : Nat := 0xfffffffffffffffffffffffffffffffffffffffffffffffffffffffefffffc2f

def order : Nat := 0xfffffffffffffffffffffffffffffffebaaedce6af48a03bbfd25e8cd0364141

def powMod (modulus base exponent : Nat) : Nat :=
  if exponent = 0 then 1 % modulus
  else
    let half := powMod modulus (base * base % modulus) (exponent / 2)
    if exponent % 2 = 1 then base * half % modulus else half
termination_by exponent

/-- The inverse modulo a prime; zero for zero. -/
def inverse (modulus n : Nat) : Nat := powMod modulus n (modulus - 2)

/-- A square root in the field. The field order is 3 modulo 4, so that only one power
has to be tried. -/
def sqrt? (n : Nat) : Option Nat :=
  let root := powMod fieldOrder n ((fieldOrder + 1) / 4)
  if root * root % fieldOrder = n % fieldOrder then some root else none

/-- A finite point. -/
structure Point where
  x : Nat
  y : Nat
deriving DecidableEq, Repr

def generator : Point where
  x := 0x79be667ef9dcbbac55a06295ce870b07029bfcdb2dce28d959f2815b16f81798
  y := 0x483ada7726a3c4655da4fbfc0e1108a8fd17b448a68554199c47d08ffb10d4b8

/-- The right side of the curve equation. -/
def equationAt (x : Nat) : Nat := (x * x % fieldOrder * x + 7) % fieldOrder

/-- The point with given coordinates, if there is one. -/
def point? (x y : Nat) : Option Point :=
  if x < fieldOrder ∧ y < fieldOrder ∧ y * y % fieldOrder = equationAt x then some ⟨x, y⟩
  else none

/-- The point with a given abscissa and an ordinate of given parity, if there is one. -/
def lift? (x : Nat) (odd : Bool) : Option Point :=
  if x < fieldOrder then
    (sqrt? (equationAt x)).map fun root =>
      ⟨x, if (root % 2 == 1) = odd then root else fieldOrder - root⟩
  else none

structure Jacobian where
  x : Nat
  y : Nat
  z : Nat

namespace Jacobian

def infinity : Jacobian := ⟨1, 1, 0⟩

def ofPoint (p : Point) : Jacobian := ⟨p.x, p.y, 1⟩

def sub (a b : Nat) : Nat := (a + fieldOrder - b) % fieldOrder

def mul (a b : Nat) : Nat := a * b % fieldOrder

def double (p : Jacobian) : Jacobian :=
  if p.z = 0 ∨ p.y = 0 then infinity
  else
    let yy := mul p.y p.y
    let s := mul 4 (mul p.x yy)
    let m := mul 3 (mul p.x p.x)
    let x := sub (mul m m) (mul 2 s)
    ⟨x, sub (mul m (sub s x)) (mul 8 (mul yy yy)), mul 2 (mul p.y p.z)⟩

def add (p q : Jacobian) : Jacobian :=
  if p.z = 0 then q
  else if q.z = 0 then p
  else
    let pz2 := mul p.z p.z
    let qz2 := mul q.z q.z
    let u1 := mul p.x qz2
    let u2 := mul q.x pz2
    let s1 := mul p.y (mul q.z qz2)
    let s2 := mul q.y (mul p.z pz2)
    if u1 = u2 then if s1 = s2 then double p else infinity
    else
      let h := sub u2 u1
      let r := sub s2 s1
      let h2 := mul h h
      let h3 := mul h h2
      let v := mul u1 h2
      let x := sub (sub (mul r r) h3) (mul 2 v)
      ⟨x, sub (mul r (sub v x)) (mul s1 h3), mul h (mul p.z q.z)⟩

/-- The `n`-fold sum of a point, by doubling. -/
def nsmul (p : Jacobian) (n : Nat) : Jacobian :=
  if n = 0 then infinity
  else
    let twice := (p.nsmul (n / 2)).double
    if n % 2 = 1 then twice.add p else twice
termination_by n

def toPoint? (p : Jacobian) : Option Point :=
  if p.z = 0 then none
  else
    let i := inverse fieldOrder p.z
    let i2 := mul i i
    some ⟨mul p.x i2, mul p.y (mul i i2)⟩

end Jacobian

/-- The multiple of the generator. -/
def ofScalar? (n : Nat) : Option Point :=
  ((Jacobian.ofPoint generator).nsmul n).toPoint?

/-- `a` times the generator plus `b` times the point. -/
def combine? (a b : Nat) (p : Point) : Option Point :=
  (((Jacobian.ofPoint generator).nsmul a).add ((Jacobian.ofPoint p).nsmul b)).toPoint?

end CoinScript.Curve
