import CoinScript.Number
import CoinScript.ParseFault
import CoinScript.Text

/-! # Instructions

An instruction is an opcode byte and, for a push, the data it pushes. A push that runs
past the end of its script is kept as a cut instruction, which holds the raw bytes that
follow the opcode, so that every byte string is a sequence of instructions.
-/
namespace CoinScript

structure Instruction where
  opcode : UInt8
  data : Bytes := []
  cut : Bool := false
deriving DecidableEq, Repr

namespace Instruction

def ofOpcode (opcode : UInt8) : Instruction := { opcode }

/-- A push whose form is chosen by the length of the data alone. -/
def ofData (data : Bytes) : Instruction where
  opcode :=
    if data.length ≤ 75 then UInt8.ofNat data.length
    else if data.length ≤ 0xff then Opcode.pushData1
    else if data.length ≤ 0xffff then Opcode.pushData2
    else Opcode.pushData4
  data := data

/-- The constant opcode that pushes `n`, for `n` from -1 to 16. -/
def constant? (n : Int) : Option Instruction :=
  if n = -1 then some (ofOpcode Opcode.negate1)
  else if n = 0 then some (ofOpcode 0)
  else if 1 ≤ n ∧ n ≤ 16 then some (ofOpcode (Opcode.one + UInt8.ofNat n.toNat - 1))
  else none

/-- The instruction that pushes a number: a constant opcode if there is one, else the
shortest form of the number as data. -/
def ofInt (n : Int) : Instruction := (constant? n).getD (ofData (Number.encode n))

/-- The smallest instruction that pushes `data`. -/
def ofPush (data : Bytes) : Instruction :=
  match data with
  | [] => ofOpcode 0
  | [b] =>
    if 1 ≤ b ∧ b ≤ 16 then ofOpcode (Opcode.one + b - 1)
    else if b = 0x81 then ofOpcode Opcode.negate1
    else ofData data
  | _ => ofData data

/-- The forms in which data can be pushed. -/
inductive PushForm where
  | direct
  | pushData1
  | pushData2
  | pushData4
deriving DecidableEq, Repr

def PushForm.maxLength : PushForm → Nat
  | direct => 75
  | pushData1 => 0xff
  | pushData2 => 0xffff
  | pushData4 => 0xffffffff

def PushForm.opcode (form : PushForm) (data : Bytes) : UInt8 :=
  match form with
  | direct => UInt8.ofNat data.length
  | pushData1 => Opcode.pushData1
  | pushData2 => Opcode.pushData2
  | pushData4 => Opcode.pushData4

/-- A push in a given form, which may be longer than needed. -/
def ofDataIn (form : PushForm) (data : Bytes) : Except ParseFault Instruction :=
  if form.maxLength < data.length then .error .tooBig
  else .ok { opcode := form.opcode data, data }

def ofName (name : String) : Except ParseFault Instruction :=
  match Opcode.ofName? name with
  | some opcode => .ok (ofOpcode opcode)
  | none => .error (.unknownOpcode name)

/-- How many bytes of explicit length stand between the opcode and the data. -/
def lengthWidth (opcode : UInt8) : Nat :=
  if opcode = Opcode.pushData1 then 1
  else if opcode = Opcode.pushData2 then 2
  else if opcode = Opcode.pushData4 then 4
  else 0

/-- How much data follows an opcode: pushes up to 75 bytes give it by the opcode itself,
longer ones by a length of their own. -/
def readLength (opcode : UInt8) : Reader ParseFault Nat :=
  if opcode ≤ 75 then .ok opcode.toNat
  else if Opcode.isPush opcode then (Wire.uint (lengthWidth opcode)).mapError fun _ => .tooShort
  else .ok 0

def readBody (opcode : UInt8) : Reader ParseFault Instruction := do
  let length ← readLength opcode
  let data ← (Wire.take length).mapError fun _ => .tooShort
  return { opcode, data }

def read : Reader ParseFault Instruction := do
  let opcode ← Wire.byte.mapError .wire
  readBody opcode

theorem readBody_shrinks (opcode : UInt8) : (readBody opcode).Shrinks := by
  refine Reader.Shrinks.bind ?_ fun n => ((Wire.take_shrinks n).mapError _).bind fun _ => .ok _
  unfold readLength
  split
  · exact .ok _
  · split
    · exact (Wire.uint_shrinks _).mapError _
    · exact .ok _

/-- The instruction that starts a script, never failing: a push that cannot be read takes
the whole script. -/
def decode (opcode : UInt8) (rest : Bytes) : Instruction × Bytes :=
  match read.run (opcode :: rest) with
  | (.ok ins, rest') => (ins, rest')
  | (.error _, _) => ({ opcode, data := rest, cut := true }, [])

theorem decode_length (opcode : UInt8) (rest : Bytes) :
    (decode opcode rest).2.length ≤ rest.length := by
  have h : (read.run (opcode :: rest)).2.length ≤ rest.length := readBody_shrinks opcode rest
  unfold decode
  split
  · rename_i heq
    simpa [heq] using h
  · simp

/-- The bytes of an instruction. A length that does not fit its width is written modulo
that width. -/
def encode (ins : Instruction) : Bytes :=
  if ins.cut then ins.opcode :: ins.data
  else ins.opcode :: (Bytes.ofNatLE (lengthWidth ins.opcode) ins.data.length
    ++ if Opcode.isPush ins.opcode then ins.data else [])

def size (ins : Instruction) : Nat :=
  if ins.cut then 1 + ins.data.length
  else 1 + lengthWidth ins.opcode + if Opcode.isPush ins.opcode then ins.data.length else 0

def isPush (ins : Instruction) : Bool := Opcode.isPush ins.opcode

/-- A whole push or small integer. -/
def isConstant (ins : Instruction) : Bool := !ins.cut && ins.opcode ≤ Opcode.sixteen

/-- Whether a push has the smallest form for its data; other instructions always do. -/
def isMinimal (ins : Instruction) : Bool :=
  if !ins.isPush then true
  else match ins.data with
    | [] => ins.opcode = 0
    | [b] =>
      if 1 ≤ b ∧ b ≤ 16 then ins.opcode = Opcode.one + b - 1
      else if b = 0x81 then ins.opcode = Opcode.negate1
      else ins.opcode = 1
    | data =>
      if data.length ≤ 75 then ins.opcode.toNat = data.length
      else if data.length ≤ 0xff then ins.opcode = Opcode.pushData1
      else if data.length ≤ 0xffff then ins.opcode = Opcode.pushData2
      else true

def name (ins : Instruction) : String := Opcode.name ins.opcode

/-- The listing of an instruction: data in hexadecimal, anything else by name. -/
def asm (ins : Instruction) : String :=
  if ins.cut then "[error]"
  else if ins.isPush && ins.opcode ≠ 0 then Hex.encode ins.data
  else ins.name

end Instruction

end CoinScript
