import CoinScript.Wire

/-! # Critical data

A sidechain record: a payload of 4 to 255 bytes and the 32-byte hash it commits to. On
the wire the payload comes first, behind its length in one byte. A payload that opens
with the merge-mining mark is also a request for a sidechain block.
-/
namespace CoinScript

namespace CriticalData

def minPayload : Nat := 4

def maxPayload : Nat := 255

def hashSize : Nat := 32

end CriticalData

structure CriticalData where
  payload : Bytes
  hash : Bytes
  payload_length :
    CriticalData.minPayload ≤ payload.length ∧ payload.length ≤ CriticalData.maxPayload
  hash_length : hash.length = CriticalData.hashSize
deriving DecidableEq

namespace CriticalData

inductive Fault where
  | hashLength (length : Nat)
  | shortPayload (length : Nat)
  | longPayload (length : Nat)
  | wire (fault : Wire.Fault)
deriving DecidableEq, Repr

def Fault.message : Fault → String
  | hashLength length =>
    s!"invalid critical data: critical hash must be {hashSize} bytes, got {length}"
  | shortPayload length =>
    s!"invalid critical data: payload must be at least {minPayload} bytes, got {length}"
  | longPayload length =>
    s!"invalid critical data: payload of {length} bytes does not fit a one-byte length"
  | wire fault => s!"critical data read error: {fault.message}"

def ofParts (payload hash : Bytes) : Except Fault CriticalData :=
  if hh : hash.length = hashSize then
    if hs : payload.length < minPayload then .error (.shortPayload payload.length)
    else if hl : maxPayload < payload.length then .error (.longPayload payload.length)
    else .ok ⟨payload, hash, by omega, hh⟩
  else .error (.hashLength hash.length)

def read : Reader Fault CriticalData := do
  let length ← Wire.byte.mapError .wire
  let payload ← (Wire.take length.toNat).mapError .wire
  let hash ← (Wire.take hashSize).mapError .wire
  .ofExcept (ofParts payload hash)

def encode (record : CriticalData) : Bytes :=
  UInt8.ofNat record.payload.length :: record.payload ++ record.hash

/-- The bytes that mark a payload as a merge-mining request. -/
def requestMark : Bytes := [0x00, 0xbf, 0x00]

structure Request where
  sidechain : UInt8
  prevBlock : UInt8
deriving DecidableEq, Repr

/-- The request of a payload: one byte after the mark is a block reference for sidechain
zero, two or more are the sidechain and the reference. -/
def request? (record : CriticalData) : Option Request :=
  match Bytes.after? requestMark record.payload with
  | some [prevBlock] => some ⟨0, prevBlock⟩
  | some (sidechain :: prevBlock :: _) => some ⟨sidechain, prevBlock⟩
  | _ => none

end CriticalData

end CoinScript
