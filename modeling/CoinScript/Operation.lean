import CoinScript.Digest

/-! # Operations

What an opcode other than a push does, by family. Opcodes without a meaning are invalid
when they are reached.
-/
namespace CoinScript

inductive UnaryOp where
  | increment
  | decrement
  | negate
  | absolute
deriving DecidableEq, Repr

def UnaryOp.eval : UnaryOp → Int → Int
  | increment, n => n + 1
  | decrement, n => n - 1
  | negate, n => -n
  | absolute, n => n.natAbs

inductive UnaryTest where
  | isZero
  | isNonzero
deriving DecidableEq, Repr

def UnaryTest.eval : UnaryTest → Int → Bool
  | isZero, n => n = 0
  | isNonzero, n => n ≠ 0

inductive BinaryOp where
  | add
  | subtract
  | minimum
  | maximum
deriving DecidableEq, Repr

def BinaryOp.eval : BinaryOp → Int → Int → Int
  | add, a, b => a + b
  | subtract, a, b => a - b
  | minimum, a, b => min a b
  | maximum, a, b => max a b

inductive BinaryTest where
  | both
  | either
  | equal
  | notEqual
  | less
  | greater
  | lessOrEqual
  | greaterOrEqual
deriving DecidableEq, Repr

def BinaryTest.eval : BinaryTest → Int → Int → Bool
  | both, a, b => a ≠ 0 && b ≠ 0
  | either, a, b => a ≠ 0 || b ≠ 0
  | equal, a, b => a = b
  | notEqual, a, b => a ≠ b
  | less, a, b => a < b
  | greater, a, b => b < a
  | lessOrEqual, a, b => a ≤ b
  | greaterOrEqual, a, b => b ≤ a

inductive HashOp where
  | ripemd160
  | sha1
  | sha256
  | hash160
  | hash256
deriving DecidableEq, Repr

def HashOp.eval (digests : Digests) : HashOp → Bytes → Bytes
  | ripemd160 => digests.ripemd160
  | sha1 => digests.sha1
  | sha256 => digests.sha256
  | hash160 => digests.hash160
  | hash256 => digests.sha256d

/-- Operations on the main stack alone. A group operation moves groups of `n` items. -/
inductive StackOp where
  | verify
  | drop
  | dropPair
  | dup (n : Nat)
  | copyOver (n : Nat)
  | rot (n : Nat)
  | swap (n : Nat)
  | ifDup
  | depth
  | nip
  | tuck
  | size
  | equal
  | equalVerify
  | hash (op : HashOp)
deriving DecidableEq, Repr

/-- Operations on numbers of the main stack. -/
inductive NumberOp where
  | unary (op : UnaryOp)
  | unaryTest (op : UnaryTest)
  | binary (op : BinaryOp)
  | binaryTest (op : BinaryTest)
  | equalVerify
  | within
  | pick
  | roll
deriving DecidableEq, Repr

/-- Signature operations either push their verdict or, in the verifying form, fail on a
bad one. -/
inductive Operation where
  | constant (n : Int)
  | nop
  | upgradableNop
  | openIf (negated : Bool)
  | switch
  | closeIf
  | earlyReturn
  | lockTime
  | sequence
  | toAlt
  | fromAlt
  | stack (op : StackOp)
  | number (op : NumberOp)
  | codeSeparator
  | checkSig (verify : Bool)
  | checkMultisig (verify : Bool)
  | invalid
deriving DecidableEq, Repr

namespace Operation

def ofOpcode (opcode : UInt8) : Operation :=
  match opcode with
  | 0x4f => .constant (-1)
  | 0x51 => .constant 1
  | 0x52 => .constant 2
  | 0x53 => .constant 3
  | 0x54 => .constant 4
  | 0x55 => .constant 5
  | 0x56 => .constant 6
  | 0x57 => .constant 7
  | 0x58 => .constant 8
  | 0x59 => .constant 9
  | 0x5a => .constant 10
  | 0x5b => .constant 11
  | 0x5c => .constant 12
  | 0x5d => .constant 13
  | 0x5e => .constant 14
  | 0x5f => .constant 15
  | 0x60 => .constant 16
  | 0x61 => .nop
  | 0x63 => .openIf false
  | 0x64 => .openIf true
  | 0x67 => .switch
  | 0x68 => .closeIf
  | 0x69 => .stack .verify
  | 0x6a => .earlyReturn
  | 0x6b => .toAlt
  | 0x6c => .fromAlt
  | 0x6d => .stack .dropPair
  | 0x6e => .stack (.dup 2)
  | 0x6f => .stack (.dup 3)
  | 0x70 => .stack (.copyOver 2)
  | 0x71 => .stack (.rot 2)
  | 0x72 => .stack (.swap 2)
  | 0x73 => .stack .ifDup
  | 0x74 => .stack .depth
  | 0x75 => .stack .drop
  | 0x76 => .stack (.dup 1)
  | 0x77 => .stack .nip
  | 0x78 => .stack (.copyOver 1)
  | 0x79 => .number .pick
  | 0x7a => .number .roll
  | 0x7b => .stack (.rot 1)
  | 0x7c => .stack (.swap 1)
  | 0x7d => .stack .tuck
  | 0x82 => .stack .size
  | 0x87 => .stack .equal
  | 0x88 => .stack .equalVerify
  | 0x8b => .number (.unary .increment)
  | 0x8c => .number (.unary .decrement)
  | 0x8f => .number (.unary .negate)
  | 0x90 => .number (.unary .absolute)
  | 0x91 => .number (.unaryTest .isZero)
  | 0x92 => .number (.unaryTest .isNonzero)
  | 0x93 => .number (.binary .add)
  | 0x94 => .number (.binary .subtract)
  | 0x9a => .number (.binaryTest .both)
  | 0x9b => .number (.binaryTest .either)
  | 0x9c => .number (.binaryTest .equal)
  | 0x9d => .number .equalVerify
  | 0x9e => .number (.binaryTest .notEqual)
  | 0x9f => .number (.binaryTest .less)
  | 0xa0 => .number (.binaryTest .greater)
  | 0xa1 => .number (.binaryTest .lessOrEqual)
  | 0xa2 => .number (.binaryTest .greaterOrEqual)
  | 0xa3 => .number (.binary .minimum)
  | 0xa4 => .number (.binary .maximum)
  | 0xa5 => .number .within
  | 0xa6 => .stack (.hash .ripemd160)
  | 0xa7 => .stack (.hash .sha1)
  | 0xa8 => .stack (.hash .sha256)
  | 0xa9 => .stack (.hash .hash160)
  | 0xaa => .stack (.hash .hash256)
  | 0xab => .codeSeparator
  | 0xac => .checkSig false
  | 0xad => .checkSig true
  | 0xae => .checkMultisig false
  | 0xaf => .checkMultisig true
  | 0xb0 => .upgradableNop
  | 0xb1 => .lockTime
  | 0xb2 => .sequence
  | 0xb3 => .upgradableNop
  | 0xb4 => .upgradableNop
  | 0xb5 => .upgradableNop
  | 0xb6 => .upgradableNop
  | 0xb7 => .upgradableNop
  | 0xb8 => .upgradableNop
  | 0xb9 => .upgradableNop
  | _ => .invalid

end Operation

end CoinScript
