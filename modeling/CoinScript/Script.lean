import CoinScript.CriticalData
import CoinScript.Instruction

/-! # Scripts

A script is a byte string; its instructions are decoded on demand. Decoding never fails
and loses nothing: the instructions of a script write back to the same bytes.
-/
namespace CoinScript

abbrev Script := Bytes

/-- An instruction where it stands: together with the part of the script after it. -/
structure Located where
  instruction : Instruction
  rest : Script
deriving DecidableEq, Repr

namespace Script

def located : Script → List Located
  | [] => []
  | opcode :: rest =>
    let step := Instruction.decode opcode rest
    ⟨step.1, step.2⟩ :: located step.2
termination_by s => s.length
decreasing_by
  have := Instruction.decode_length opcode rest
  simp only [List.length_cons]
  omega

def instructions (s : Script) : List Instruction := s.located.map (·.instruction)

def ofInstructions (inss : List Instruction) : Script := inss.flatMap Instruction.encode

def ofHex (text : String) : Except ParseFault Script :=
  (Hex.decode text).mapError .scriptHex

/-- The listing of a script, one word an instruction. -/
def asm (s : Script) : String := " ".intercalate (s.instructions.map Instruction.asm)

/-- Whether a script only pushes constants. -/
def isPushOnly (s : Script) : Bool := s.instructions.all Instruction.isConstant

/-- Removes the bytes `needle` wherever they start at an instruction, over and over, and
counts the removals. A match may span several instructions; nothing is removed from a
push that is cut. -/
def removeAll (needle : Bytes) (s : Script) : Nat × Script :=
  if _hn : needle = [] then (0, s)
  else match _hp : Bytes.after? needle s with
    | some rest =>
      let (found, kept) := removeAll needle rest
      (found + 1, kept)
    | none =>
      match s with
      | [] => (0, [])
      | opcode :: tail =>
        let step := Instruction.decode opcode tail
        if step.1.cut then (0, opcode :: tail)
        else
          let (found, kept) := removeAll needle step.2
          (found, step.1.encode ++ kept)
termination_by s.length
decreasing_by
  · have h := Bytes.after?_eq_some_iff.1 _hp
    have : needle.length ≠ 0 := by simpa using _hn
    simp [h]
    omega
  · have := Instruction.decode_length opcode tail
    simp only [List.length_cons]
    omega

/-- Signature operations of instructions that follow the opcode `last`. A multisignature
counts as twenty, or, counted accurately, as the small integer before it. -/
def sigOpsAfter (accurate : Bool) (last : UInt8) : List Instruction → Nat
  | [] => 0
  | ins :: rest =>
    if ins.cut then 0
    else
      let here :=
        if ins.opcode = Opcode.checkSig ∨ ins.opcode = Opcode.checkSigVerify then 1
        else if ins.opcode = Opcode.checkMultisig ∨ ins.opcode = Opcode.checkMultisigVerify then
          if accurate ∧ Opcode.one ≤ last ∧ last ≤ Opcode.sixteen then
            (last - Opcode.one + 1).toNat
          else 20
        else 0
      here + sigOpsAfter accurate ins.opcode rest

def sigOps (accurate : Bool) (s : Script) : Nat := sigOpsAfter accurate 0xff s.instructions

end Script

end CoinScript
