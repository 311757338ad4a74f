import CoinScript.Script
import CoinScript.Signature.Der

/-! # The spending transaction

Execution knows the transaction only through a context: the fields that lock times look
at, the digest that a signature has to cover, and the check of a signature against a key.
-/
namespace CoinScript

/-- Which rules an execution follows for signature digests and script code. -/
inductive SigVersion where
  | base
  | witnessV0
deriving DecidableEq, Repr

/-- What a signature check has to compare: a key and a signature, and the hash type that
selects the digest. -/
structure SignatureQuery where
  key : PublicKey
  signature : Signature
  hashType : UInt8
deriving DecidableEq, Repr

/-- The query of a signature with trailing hash type and a serialized key. Nothing is
asked if either cannot be read. -/
def SignatureQuery.of? (sig key : Bytes) (curve : Curve.Library := .standard) :
    Option SignatureQuery :=
  match sig.getLast? with
  | none => none
  | some hashType =>
    match PublicKey.ofBytes key curve, Signature.ofDerLax sig.dropLast with
    | .ok key, .ok signature => some { key, signature, hashType }
    | _, _ => none

/-- The digest that a signature covers, by script code and hash type. -/
abbrev SignatureHash := Script → UInt8 → SigVersion → Bytes

/-- The check of a signature against a key; what cannot be read does not verify. -/
def SignatureHash.check (hash : SignatureHash) (curve : Curve.Library) (sig key : Bytes)
    (code : Script) (version : SigVersion) : Bool :=
  match SignatureQuery.of? sig key curve with
  | some query => query.signature.verify (hash code query.hashType version) query.key curve
  | none => false

/-- The view of the transaction from the input that is verified. -/
structure TxContext where
  lockTime : UInt32
  version : UInt32
  /-- The sequence number of the input. -/
  sequence : UInt32
  signatureHash : SignatureHash
  curve : Curve.Library := .standard
  checkSignature : Bytes → Bytes → Script → SigVersion → Bool := signatureHash.check curve

/-- The context of the input at `index`; an input that is not there has sequence zero. -/
def TxContext.ofInput (lockTime version : UInt32) (sequences : List UInt32) (index : Nat)
    (signatureHash : SignatureHash) : TxContext :=
  { lockTime, version, signatureHash, sequence := sequences.getD index 0 }

end CoinScript
