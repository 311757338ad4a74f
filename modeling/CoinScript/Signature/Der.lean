import CoinScript.Signature

/-! # Signatures in DER

A signature is written as a sequence of two integers in their shortest form, with a low
`s`. Two readers accept such bytes. The lax reader takes anything loosely of that shape:
lengths in the long form, padded integers, bytes left over at the end. The strict check
accepts exactly the canonical form, followed by one byte for the hash type.
-/
namespace CoinScript

inductive DerFault where
  | noSequenceTag
  | noSequenceLength
  | sequenceOverrun
  | badR
  | badS
deriving DecidableEq, Repr

def DerFault.message (fault : DerFault) : String :=
  "bad signature: malformed signature: " ++ match fault with
  | noSequenceTag => "no sequence tag"
  | noSequenceLength => "no sequence length"
  | sequenceOverrun => "sequence length overruns"
  | badR => "bad R"
  | badS => "bad S"

namespace Signature

/-- The shortest bytes of a non-negative integer whose top bit is clear. -/
def derInteger (w : BitVec 256) : Bytes :=
  match Bytes.dropZeros (wordBytes w) with
  | [] => [0]
  | top :: rest => if top < 0x80 then top :: rest else 0 :: top :: rest

def toDer (sig : Signature) : Bytes :=
  let r := derInteger sig.r
  let s := derInteger sig.normalizeS.s
  [0x30, UInt8.ofNat (4 + r.length + s.length), 0x02, UInt8.ofNat r.length] ++ r
    ++ [0x02, UInt8.ofNat s.length] ++ s

/-- What follows the head of a sequence. The length is skipped and otherwise ignored. -/
def laxSequence : Bytes → Except DerFault Bytes
  | [] => .error .noSequenceTag
  | tag :: rest =>
    if tag ≠ 0x30 then .error .noSequenceTag
    else match rest with
      | [] => .error .noSequenceLength
      | length :: rest =>
        if length < 0x80 then .ok rest
        else match Bytes.split? (length.toNat - 0x80) rest with
          | some (_, rest) => .ok rest
          | none => .error .sequenceOverrun

/-- The payload of an integer and what follows it. A long length may start with any
number of zeros and then has at most seven bytes. -/
def laxInteger? : Bytes → Option (Bytes × Bytes)
  | tag :: length :: rest =>
    if tag ≠ 0x02 then none
    else if length < 0x80 then Bytes.split? length.toNat rest
    else match Bytes.split? (length.toNat - 0x80) rest with
      | some (digits, rest) =>
        let digits := Bytes.dropZeros digits
        if 8 ≤ digits.length then none else Bytes.split? (Bytes.toNatBE digits) rest
      | none => none
  | _ => none

/-- The value of a payload, if it is below the group order. -/
def laxScalar? (payload : Bytes) : Option Nat :=
  let digits := Bytes.dropZeros payload
  let n := Bytes.toNatBE digits
  if digits.length ≤ 32 ∧ n < Curve.order then some n else none

/-- The lax reader. Components out of range make the zero signature, which verifies
nothing. -/
def ofDerLax (bytes : Bytes) : Except DerFault Signature := do
  let body ← laxSequence bytes
  match laxInteger? body with
  | none => .error .badR
  | some (r, rest) =>
    match laxInteger? rest with
    | none => .error .badS
    | some (s, _) =>
      match laxScalar? r, laxScalar? s with
      | some r, some s => .ok (ofNats r s)
      | _, _ => .ok (ofNats 0 0)

/-- The shortest form of a non-negative integer: not empty, top bit clear, and a leading
zero only where the next byte needs it. -/
def isDerInteger : Bytes → Bool
  | [] => false
  | [top] => top < 0x80
  | top :: next :: _ => top < 0x80 && (top ≠ 0 || 0x80 ≤ next)

/-- The strict check of a signature with its hash type. -/
def isStrictDer (bytes : Bytes) : Bool :=
  9 ≤ bytes.length && bytes.length ≤ 73 &&
  match bytes with
  | tag :: total :: tagR :: lengthR :: rest =>
    tag = 0x30 && total.toNat + 3 = bytes.length &&
    match Bytes.split? lengthR.toNat rest with
    | some (r, tagS :: lengthS :: rest) =>
      match Bytes.split? lengthS.toNat rest with
      | some (s, [_]) => tagR = 0x02 && isDerInteger r && tagS = 0x02 && isDerInteger s
      | _ => false
    | _ => false
  | _ => false

end Signature

end CoinScript
