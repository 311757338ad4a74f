import CoinScript.Machine

/-! # Encodings of signatures and keys

The rules narrow down, step by step, which byte strings may be handed to a signature
check at all.
-/
namespace CoinScript

/-- A hash type is one of three, with or without the bit for a single input. -/
def isHashType (hashType : UInt8) : Bool :=
  let kind := hashType % 0x80
  1 ≤ kind && kind ≤ 3

def isCompressedKey (key : Bytes) : Bool :=
  match key with
  | tag :: body => body.length = 32 && (tag = 2 || tag = 3)
  | [] => false

def isUncompressedKey (key : Bytes) : Bool :=
  match key with
  | tag :: body => body.length = 64 && tag = 4
  | [] => false

/-- Whether a signature without its hash type can be read and has a low `s`. -/
def hasLowS (der : Bytes) : Bool :=
  match Signature.ofDerLax der with
  | .ok sig => sig.isLowS
  | .error _ => false

namespace Env

/-- An empty signature is always admitted: it is the short way to fail a check. -/
def checkSignatureEncoding (env : Env) (sig : Bytes) : Except Fault Unit :=
  match sig.getLast? with
  | none => .ok ()
  | some hashType =>
    if (env.flags.has .derSig || env.flags.has .lowS || env.flags.has .strictEnc)
        && !Signature.isStrictDer sig then .error .looseSignature
    else if env.flags.has .lowS && !hasLowS sig.dropLast then .error .highS
    else if env.flags.has .strictEnc && !isHashType hashType then .error (.badHashType hashType)
    else .ok ()

def checkKeyEncoding (env : Env) (key : Bytes) : Except Fault Unit :=
  if env.flags.has .strictEnc && !(isCompressedKey key || isUncompressedKey key) then
    .error .badKeyType
  else if env.flags.has .witnessPubkeyType && env.version = .witnessV0 && !isCompressedKey key then
    .error .uncompressedWitnessKey
  else .ok ()

end Env

end CoinScript
