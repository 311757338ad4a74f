import CoinScript.Script

/-! # Script patterns

Outputs of a known kind are recognised by their bytes.
-/
namespace CoinScript.Script

/-- The hash of a pay-to-script-hash output: `HASH160 <20 bytes> EQUAL`. -/
def scriptHash? : Script → Option Bytes
  | first :: second :: rest =>
    match Bytes.split? 20 rest with
    | some (hash, [last]) =>
      if first = Opcode.hash160 ∧ second = 20 ∧ last = Opcode.equal then some hash else none
    | _ => none
  | _ => none

def isScriptHash (s : Script) : Bool := s.scriptHash?.isSome

/-- The script that pays to the holder of a key: `DUP HASH160 <hash> EQUALVERIFY CHECKSIG`. -/
def payToKeyHash (hash : Bytes) : Script :=
  [Opcode.dup, Opcode.hash160] ++ (Instruction.ofData hash).encode
    ++ [Opcode.equalVerify, Opcode.checkSig]

/-- Whether a script pays to the holder of a key with a 20-byte hash. -/
def isKeyHash : Script → Bool
  | a :: b :: c :: rest =>
    match Bytes.split? 20 rest with
    | some (_, [d, e]) =>
      a = Opcode.dup && b = Opcode.hash160 && c = 20 && d = Opcode.equalVerify
        && e = Opcode.checkSig
    | _ => false
  | _ => false

/-- A `RETURN` that only constants follow. -/
def isNullData (s : Script) : Bool :=
  s.head? = some Opcode.earlyReturn && (s.instructions.drop 1).all Instruction.isConstant

def maxNullDataSize : Nat := 83

/-- Null data that is relayed: short and with minimal pushes only. -/
def isStandardNullData (s : Script) : Bool :=
  s.length ≤ maxNullDataSize && s.isNullData && s.instructions.all Instruction.isMinimal

/-- The four bytes that open a critical hash commitment. -/
def criticalMagic : Bytes := [0xd1, 0x61, 0x73, 0x68]

/-- The hash of a commitment `RETURN <magic and 32-byte hash>` and what stands behind it. -/
def criticalParts? (s : Script) : Option (Bytes × Bytes) :=
  match Bytes.after? (Opcode.earlyReturn :: 36 :: criticalMagic) s with
  | some rest => Bytes.split? 32 rest
  | none => none

def isCriticalCommit (s : Script) : Bool := s.criticalParts?.isSome

/-- The record of a commitment, if what stands behind its hash can be a payload. -/
def criticalData? (s : Script) : Option CriticalData :=
  match s.criticalParts? with
  | some (hash, payload) => (CriticalData.ofParts payload hash).toOption
  | none => none

/-- Version and program of a witness output: a small integer and one direct push of 2 to
40 bytes. -/
def witnessProgram? : Script → Option (Nat × Bytes)
  | first :: second :: program =>
    if 2 ≤ program.length ∧ program.length ≤ 40 ∧ second.toNat = program.length then
      if first = 0 then some (0, program)
      else if Opcode.one ≤ first ∧ first ≤ Opcode.sixteen then
        some ((first - Opcode.one + 1).toNat, program)
      else none
    else none
  | _ => none

def isWitnessProgram (s : Script) : Bool := s.witnessProgram?.isSome

end CoinScript.Script
