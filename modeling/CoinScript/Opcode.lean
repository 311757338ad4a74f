/-! # Opcode bytes

The byte that opens an instruction, with the mnemonics by which scripts are written and
listed. Bytes above the last named one have no mnemonic of their own.
-/
namespace CoinScript.Opcode

def pushData1 : UInt8 := 0x4c
def pushData2 : UInt8 := 0x4d
def pushData4 : UInt8 := 0x4e
def negate1 : UInt8 := 0x4f
def one : UInt8 := 0x51
def sixteen : UInt8 := 0x60
def ifTrue : UInt8 := 0x63
def endIf : UInt8 := 0x68
def earlyReturn : UInt8 := 0x6a
def dup : UInt8 := 0x76
def equal : UInt8 := 0x87
def equalVerify : UInt8 := 0x88
def hash160 : UInt8 := 0xa9
def codeSeparator : UInt8 := 0xab
def checkSig : UInt8 := 0xac
def checkSigVerify : UInt8 := 0xad
def checkMultisig : UInt8 := 0xae
def checkMultisigVerify : UInt8 := 0xaf
def lockTimeVerify : UInt8 := 0xb1
def sequenceVerify : UInt8 := 0xb2

def directPushNames : List String :=
  (List.range 75).map fun n => s!"OP_DATA_{n + 1}"

def smallIntNames : List String := (List.range 16).map fun n => s!"OP_{n + 1}"

/-- Mnemonics in the order of the bytes, from zero on. -/
def names : List String :=
  ["OP_0"] ++ directPushNames ++
  ["OP_PUSHDATA1", "OP_PUSHDATA2", "OP_PUSHDATA4", "OP_1NEGATE", "OP_RESERVED"] ++
  smallIntNames ++
  ["OP_NOP", "OP_VER", "OP_IF", "OP_NOTIF", "OP_VERIF", "OP_VERNOTIF", "OP_ELSE", "OP_ENDIF",
    "OP_VERIFY", "OP_RETURN", "OP_TOALTSTACK", "OP_FROMALTSTACK", "OP_2DROP", "OP_2DUP",
    "OP_3DUP", "OP_2OVER", "OP_2ROT", "OP_2SWAP", "OP_IFDUP", "OP_DEPTH", "OP_DROP", "OP_DUP",
    "OP_NIP", "OP_OVER", "OP_PICK", "OP_ROLL", "OP_ROT", "OP_SWAP", "OP_TUCK", "OP_CAT",
    "OP_SUBSTR", "OP_LEFT", "OP_RIGHT", "OP_SIZE", "OP_INVERT", "OP_AND", "OP_OR", "OP_XOR",
    "OP_EQUAL", "OP_EQUALVERIFY", "OP_RESERVED1", "OP_RESERVED2", "OP_1ADD", "OP_1SUB",
    "OP_2MUL", "OP_2DIV", "OP_NEGATE", "OP_ABS", "OP_NOT", "OP_0NOTEQUAL", "OP_ADD", "OP_SUB",
    "OP_MUL", "OP_DIV", "OP_MOD", "OP_LSHIFT", "OP_RSHIFT", "OP_BOOLAND", "OP_BOOLOR",
    "OP_NUMEQUAL", "OP_NUMEQUALVERIFY", "OP_NUMNOTEQUAL", "OP_LESSTHAN", "OP_GREATERTHAN",
    "OP_LESSTHANOREQUAL", "OP_GREATERTHANOREQUAL", "OP_MIN", "OP_MAX", "OP_WITHIN",
    "OP_RIPEMD160", "OP_SHA1", "OP_SHA256", "OP_HASH160", "OP_HASH256", "OP_CODESEPARATOR",
    "OP_CHECKSIG", "OP_CHECKSIGVERIFY", "OP_CHECKMULTISIG", "OP_CHECKMULTISIGVERIFY",
    "OP_NOP1", "OP_CHECKLOCKTIMEVERIFY", "OP_CHECKSEQUENCEVERIFY", "OP_NOP4", "OP_NOP5",
    "OP_NOP6", "OP_NOP7", "OP_NOP8", "OP_NOP9", "OP_NOP10"]

def name (value : UInt8) : String := names.getD value.toNat "OP_UNKNOWN"

/-- Second mnemonics of four opcodes. -/
def aliases : List (String × UInt8) :=
  [("OP_FALSE", 0), ("OP_TRUE", one), ("OP_NOP2", lockTimeVerify), ("OP_NOP3", sequenceVerify)]

/-- The mnemonic in full: capital letters, with the `OP_` in front. -/
def fullName (name : String) : String :=
  let upper := name.toList.map Char.toUpper
  String.ofList (if ['O', 'P', '_'].isPrefixOf upper then upper else 'O' :: 'P' :: '_' :: upper)

/-- The opcode of a mnemonic. A direct push is written by its data, never by its name. -/
def ofName? (name : String) : Option UInt8 :=
  let full := fullName name
  match aliases.lookup full with
  | some value => some value
  | none =>
    if "OP_DATA_".toList.isPrefixOf full.toList then none
    else (names.idxOf? full).map UInt8.ofNat

/-- Whether an opcode pushes the data that follows it. -/
def isPush (value : UInt8) : Bool := value ≤ pushData4

/-- Whether an opcode counts towards the operation limit. -/
def isCounted (value : UInt8) : Bool := sixteen < value

/-- Opcodes that keep track of nesting, and so act in branches not taken too. -/
def isConditional (value : UInt8) : Bool := ifTrue ≤ value && value ≤ endIf

/-- Splicing, bitwise and multiplicative opcodes that no longer execute. -/
def isDisabled (value : UInt8) : Bool :=
  [0x7e, 0x7f, 0x80, 0x81, 0x83, 0x84, 0x85, 0x86, 0x8d, 0x8e, 0x95, 0x96, 0x97, 0x98, 0x99].contains
    value

/-- The number of a constant opcode. -/
def smallInt? (value : UInt8) : Option Int :=
  if value = 0 then some 0
  else if value = negate1 then some (-1)
  else if one ≤ value ∧ value ≤ sixteen then some (value - one + 1).toNat
  else none

end CoinScript.Opcode
