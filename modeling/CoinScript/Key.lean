import CoinScript.Curve.Library
import CoinScript.Digest
import CoinScript.Hex

/-! # Keys

A private key is a scalar from one up to the group order. A public key is a curve point. A hybrid
of the full form and the parity is read as the full form, if the parity is right; every other form
is left to a library for the curve.
-/
namespace CoinScript

inductive KeyFault where
  | privateLength (length : Nat)
  | privateRange
  | emptyPublic
  | hybridParity
  | noPoint
  | hex (fault : Hex.Fault)
deriving DecidableEq, Repr

def KeyFault.message : KeyFault → String
  | privateLength length => s!"bad private key: expected 32 bytes, got {length}"
  | privateRange => "bad private key: signature error"
  | emptyPublic => "bad public key encoding: pubkey is empty"
  | hybridParity => "bad public key encoding: hybrid prefix does not match y parity"
  | noPoint => "bad public key encoding: signature error"
  | hex fault => fault.message

structure PublicKey where
  point : Curve.Point
deriving DecidableEq, Repr

namespace PublicKey

/-- The key at the point of an encoding. -/
def ofPlain (curve : Curve.Library) (bytes : Bytes) : Except KeyFault PublicKey :=
  match curve.readPoint bytes with
  | some point => .ok ⟨point⟩
  | none => .error .noPoint

def ofBytes (bytes : Bytes) (curve : Curve.Library := .standard) : Except KeyFault PublicKey :=
  match bytes with
  | [] => .error .emptyPublic
  | tag :: body =>
    if body.length = 64 ∧ (tag = 6 ∨ tag = 7) then
      if tag % 2 ≠ body.getLastD 0 % 2 then .error .hybridParity else ofPlain curve (4 :: body)
    else ofPlain curve (tag :: body)

def ofHex (text : String) : Except KeyFault PublicKey := do
  ofBytes (← (Hex.decode text).mapError .hex)

def compressed (key : PublicKey) : Bytes :=
  (if key.point.y % 2 = 1 then 3 else 2) :: Bytes.ofNatBE 32 key.point.x

def uncompressed (key : PublicKey) : Bytes :=
  4 :: Bytes.ofNatBE 32 key.point.x ++ Bytes.ofNatBE 32 key.point.y

/-- The digest by which outputs name a key. -/
def hash160 (key : PublicKey) (digests : Digests := .standard) : Bytes :=
  digests.hash160 key.compressed

end PublicKey

structure PrivateKey where
  secret : Nat
  secret_pos : 0 < secret
  secret_lt : secret < Curve.order
deriving DecidableEq

namespace PrivateKey

def ofBytes (bytes : Bytes) : Except KeyFault PrivateKey :=
  if bytes.length ≠ 32 then .error (.privateLength bytes.length)
  else
    let n := Bytes.toNatBE bytes
    if h : 0 < n ∧ n < Curve.order then .ok ⟨n, h.1, h.2⟩ else .error .privateRange

def ofHex (text : String) : Except KeyFault PrivateKey := do
  ofBytes (← (Hex.decode text).mapError .hex)

def toBytes (key : PrivateKey) : Bytes := Bytes.ofNatBE 32 key.secret

/-- The public key. A scalar below the group order never gives the point at infinity. -/
def publicKey (key : PrivateKey) : PublicKey := ⟨(Curve.ofScalar? key.secret).getD ⟨0, 0⟩⟩

end PrivateKey

end CoinScript
