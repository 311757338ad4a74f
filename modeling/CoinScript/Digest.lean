import CoinScript.Digest.Ripemd160
import CoinScript.Digest.Sha1
import CoinScript.Digest.Sha256

/-! # Digests

An engine is run with three digests, of which nothing but their lengths is relied on. Scripts
commit to other scripts and to keys by `hash160`, and signatures cover the double digest `sha256d`;
both are composed of the three. The standard digests are those that scripts are really run with.
Nonces are derived with the keyed digest `hmacSha256`.
-/
namespace CoinScript

/-- The digests that an engine is run with. -/
structure Digests where
  ripemd160 : Bytes → Bytes
  sha1 : Bytes → Bytes
  sha256 : Bytes → Bytes
  length_ripemd160 : ∀ message, (ripemd160 message).length = 20
  length_sha1 : ∀ message, (sha1 message).length = 20
  length_sha256 : ∀ message, (sha256 message).length = 32

namespace Digests

def standard : Digests where
  ripemd160 := Digest.ripemd160
  sha1 := Digest.sha1
  sha256 := Digest.sha256
  length_ripemd160 := Digest.length_ripemd160
  length_sha1 := Digest.length_sha1
  length_sha256 := Digest.length_sha256

variable (digests : Digests) (message : Bytes)

def sha256d : Bytes := digests.sha256 (digests.sha256 message)

def hash160 : Bytes := digests.ripemd160 (digests.sha256 message)

theorem length_sha256d : (digests.sha256d message).length = 32 := digests.length_sha256 _

theorem length_hash160 : (digests.hash160 message).length = 20 := digests.length_ripemd160 _

end Digests

namespace Digest

def sha256d (message : Bytes) : Bytes := Digests.standard.sha256d message

def hash160 (message : Bytes) : Bytes := Digests.standard.hash160 message

/-- A key of one block: longer keys are hashed, shorter ones filled up with zeros. -/
def blockKey (key : Bytes) : Bytes :=
  let short := if key.length ≤ 64 then key else sha256 key
  short ++ List.replicate (64 - short.length) 0

def hmacSha256 (key message : Bytes) : Bytes :=
  let k := blockKey key
  sha256 (k.map (· ^^^ 0x5c) ++ sha256 (k.map (· ^^^ 0x36) ++ message))

end Digest

end CoinScript
