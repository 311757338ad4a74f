import CoinScript.Key

/-! # Signatures

A signature is a pair of 256-bit words. They need not be scalars: a pair that is out of
range is still a signature, one that verifies nothing. For every signature with a high
`s` there is one with a low `s` that verifies the same digests.
-/
namespace CoinScript

structure Signature where
  r : BitVec 256
  s : BitVec 256
deriving DecidableEq, Repr

namespace Signature

def ofNats (r s : Nat) : Signature := ⟨BitVec.ofNat 256 r, BitVec.ofNat 256 s⟩

/-- The big-endian bytes of a component. -/
def wordBytes (w : BitVec 256) : Bytes := Bytes.ofNatBE 32 w.toNat

def ofWordBytes (r s : Bytes) : Signature := ofNats (Bytes.toNatBE r) (Bytes.toNatBE s)

/-- The largest low `s`. -/
def halfOrder : BitVec 256 := BitVec.ofNat 256 (Curve.order / 2)

def isLowS (sig : Signature) : Bool := sig.s ≤ halfOrder

/-- The group order minus a word, modulo 2²⁵⁶. -/
def complement (w : BitVec 256) : BitVec 256 := BitVec.ofNat 256 Curve.order - w

/-- The same signature with a low `s`. -/
def normalizeS (sig : Signature) : Signature :=
  if sig.isLowS then sig else { sig with s := complement sig.s }

/-- Whether the signature is one of the digest by the holder of the key. It is its form with a low
`s` that is looked at. -/
def verify (sig : Signature) (digest : Bytes) (key : PublicKey)
    (curve : Curve.Library := .standard) : Bool :=
  let r := sig.normalizeS.r.toNat
  let s := sig.normalizeS.s.toNat
  curve.admits r s && curve.verifies r s digest key.point

end Signature

end CoinScript
