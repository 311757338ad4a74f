import CoinScript.Signature

/-! # Signing

The nonce of a signature is drawn from a generator that is seeded with the private key
and the digest, so that signing is a function of the two. The digest enters the seed as
it is and the signature equation modulo the group order. The result has a low `s`.
-/
namespace CoinScript

/-- A generator of pseudo-random bytes from a keyed digest. -/
structure NonceGenerator where
  key : Bytes
  value : Bytes

namespace NonceGenerator

def reseed (g : NonceGenerator) (extra : Bytes) : NonceGenerator :=
  let key := Digest.hmacSha256 g.key (g.value ++ extra)
  ⟨key, Digest.hmacSha256 key g.value⟩

def start (secret digest : Bytes) : NonceGenerator :=
  let fresh : NonceGenerator := ⟨List.replicate 32 0, List.replicate 32 1⟩
  (fresh.reseed (0 :: secret ++ digest)).reseed (1 :: secret ++ digest)

/-- The next 32 bytes, and the generator after them. -/
def next (g : NonceGenerator) : Bytes × NonceGenerator :=
  let value := Digest.hmacSha256 g.key g.value
  (value, NonceGenerator.reseed ⟨g.key, value⟩ [0])

/-- The first of `tries` draws that is a scalar. A draw misses with a chance below one in
2¹²⁷. -/
def scalar? (g : NonceGenerator) : Nat → Option Nat
  | 0 => none
  | tries + 1 =>
    let (bytes, g) := g.next
    let n := Bytes.toNatBE bytes
    if Curve.isScalar n then some n else scalar? g tries

end NonceGenerator

namespace PrivateKey

/-- The signature of a digest with a given nonce; none in the case that a component
comes out as zero. -/
def signWith? (key : PrivateKey) (digest : Bytes) (nonce : Nat) : Option Signature := do
  let p ← Curve.ofScalar? nonce
  let r := p.x % Curve.order
  let z := Bytes.toNatBE digest % Curve.order
  let s := Curve.inverse Curve.order nonce * ((z + r * key.secret) % Curve.order) % Curve.order
  if r = 0 ∨ s = 0 then none else some (Signature.ofNats r s).normalizeS

def sign? (key : PrivateKey) (digest : Bytes) : Option Signature := do
  let nonce ← (NonceGenerator.start key.toBytes digest).scalar? 256
  key.signWith? digest nonce

end PrivateKey

end CoinScript
