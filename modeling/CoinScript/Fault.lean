import CoinScript.Hex
import CoinScript.Opcode

/-! # Execution faults

A fault is the cause for which an execution or a spend is refused. Each cause belongs
to one code, the stable word that callers match on, and has a message of its own.
-/
namespace CoinScript

inductive FaultCode where
  | underflow
  | altUnderflow
  | badOpcode
  | disabledOpcode
  | unbalancedConditional
  | opCountExceeded
  | evalFalse
  | opReturn
  | scriptSize
  | pushSize
  | stackSize
  | sigCount
  | pubkeyCount
  | verify
  | equalVerify
  | checkMultisigVerify
  | checkSigVerify
  | numEqualVerify
  | negativeLocktime
  | unsatisfiedLocktime
  | sigHashType
  | sigDer
  | minimalData
  | sigPushOnly
  | sigHighS
  | sigNullDummy
  | pubkeyType
  | cleanStack
  | minimalIf
  | nullFail
  | discourageUpgradableNops
  | discourageUpgradableWitnessProgram
  | witnessProgramWrongLength
  | witnessProgramWitnessEmpty
  | witnessProgramMismatch
  | witnessMalleated
  | witnessMalleatedP2sh
  | witnessUnexpected
  | witnessPubkeyType
  | opCodeSeparator
  | sigFindAndDelete
  | scriptNumError
deriving DecidableEq, Repr

namespace FaultCode

/-- The word that stands for a code in reports. -/
def word : FaultCode → String
  | underflow => "INVALID_STACK_OPERATION"
  | altUnderflow => "INVALID_ALTSTACK_OPERATION"
  | badOpcode => "BAD_OPCODE"
  | disabledOpcode => "DISABLED_OPCODE"
  | unbalancedConditional => "UNBALANCED_CONDITIONAL"
  | opCountExceeded => "OP_COUNT"
  | evalFalse => "EVAL_FALSE"
  | opReturn => "OP_RETURN"
  | scriptSize => "SCRIPT_SIZE"
  | pushSize => "PUSH_SIZE"
  | stackSize => "STACK_SIZE"
  | sigCount => "SIG_COUNT"
  | pubkeyCount => "PUBKEY_COUNT"
  | verify => "VERIFY"
  | equalVerify => "EQUALVERIFY"
  | checkMultisigVerify => "CHECKMULTISIGVERIFY"
  | checkSigVerify => "CHECKSIGVERIFY"
  | numEqualVerify => "NUMEQUALVERIFY"
  | negativeLocktime => "NEGATIVE_LOCKTIME"
  | unsatisfiedLocktime => "UNSATISFIED_LOCKTIME"
  | sigHashType => "SIG_HASHTYPE"
  | sigDer => "SIG_DER"
  | minimalData => "MINIMALDATA"
  | sigPushOnly => "SIG_PUSHONLY"
  | sigHighS => "SIG_HIGH_S"
  | sigNullDummy => "SIG_NULLDUMMY"
  | pubkeyType => "PUBKEYTYPE"
  | cleanStack => "CLEANSTACK"
  | minimalIf => "MINIMALIF"
  | nullFail => "NULLFAIL"
  | discourageUpgradableNops => "DISCOURAGE_UPGRADABLE_NOPS"
  | discourageUpgradableWitnessProgram => "DISCOURAGE_UPGRADABLE_WITNESS_PROGRAM"
  | witnessProgramWrongLength => "WITNESS_PROGRAM_WRONG_LENGTH"
  | witnessProgramWitnessEmpty => "WITNESS_PROGRAM_WITNESS_EMPTY"
  | witnessProgramMismatch => "WITNESS_PROGRAM_MISMATCH"
  | witnessMalleated => "WITNESS_MALLEATED"
  | witnessMalleatedP2sh => "WITNESS_MALLEATED_P2SH"
  | witnessUnexpected => "WITNESS_UNEXPECTED"
  | witnessPubkeyType => "WITNESS_PUBKEYTYPE"
  | opCodeSeparator => "OP_CODESEPARATOR"
  | sigFindAndDelete => "SIG_FINDANDDELETE"
  | scriptNumError => "UNKNOWN_ERROR"

/-- How a code and a description are put into one line. -/
def report (code : FaultCode) (description : String) : String := code.word ++ ": " ++ description

/-- The name of a code in capitalised words. -/
def label : FaultCode → String
  | underflow => "Underflow"
  | altUnderflow => "AltUnderflow"
  | badOpcode => "BadOpcode"
  | disabledOpcode => "DisabledOpcode"
  | unbalancedConditional => "UnbalancedConditional"
  | opCountExceeded => "OpCountExceeded"
  | evalFalse => "EvalFalse"
  | opReturn => "OpReturn"
  | scriptSize => "ScriptSize"
  | pushSize => "PushSize"
  | stackSize => "StackSize"
  | sigCount => "SigCount"
  | pubkeyCount => "PubkeyCount"
  | verify => "Verify"
  | equalVerify => "EqualVerify"
  | checkMultisigVerify => "CheckMultisigVerify"
  | checkSigVerify => "CheckSigVerify"
  | numEqualVerify => "NumEqualVerify"
  | negativeLocktime => "NegativeLocktime"
  | unsatisfiedLocktime => "UnsatisfiedLocktime"
  | sigHashType => "SigHashType"
  | sigDer => "SigDer"
  | minimalData => "MinimalData"
  | sigPushOnly => "SigPushOnly"
  | sigHighS => "SigHighS"
  | sigNullDummy => "SigNullDummy"
  | pubkeyType => "PubkeyType"
  | cleanStack => "CleanStack"
  | minimalIf => "MinimalIf"
  | nullFail => "NullFail"
  | discourageUpgradableNops => "DiscourageUpgradableNops"
  | discourageUpgradableWitnessProgram => "DiscourageUpgradableWitnessProgram"
  | witnessProgramWrongLength => "WitnessProgramWrongLength"
  | witnessProgramWitnessEmpty => "WitnessProgramWitnessEmpty"
  | witnessProgramMismatch => "WitnessProgramMismatch"
  | witnessMalleated => "WitnessMalleated"
  | witnessMalleatedP2sh => "WitnessMalleatedP2sh"
  | witnessUnexpected => "WitnessUnexpected"
  | witnessPubkeyType => "WitnessPubkeyType"
  | opCodeSeparator => "OpCodeSeparator"
  | sigFindAndDelete => "SigFindAndDelete"
  | scriptNumError => "ScriptNumError"

/-- Every code, in declaration order. -/
def all : List FaultCode :=
  [underflow, altUnderflow, badOpcode, disabledOpcode, unbalancedConditional, opCountExceeded,
    evalFalse, opReturn, scriptSize, pushSize, stackSize, sigCount, pubkeyCount, verify,
    equalVerify, checkMultisigVerify, checkSigVerify, numEqualVerify, negativeLocktime,
    unsatisfiedLocktime, sigHashType, sigDer, minimalData, sigPushOnly, sigHighS, sigNullDummy,
    pubkeyType, cleanStack, minimalIf, nullFail, discourageUpgradableNops,
    discourageUpgradableWitnessProgram, witnessProgramWrongLength, witnessProgramWitnessEmpty,
    witnessProgramMismatch, witnessMalleated, witnessMalleatedP2sh, witnessUnexpected,
    witnessPubkeyType, opCodeSeparator, sigFindAndDelete, scriptNumError]

end FaultCode

/-- Numbers are counted in items or bytes; opcodes are given by their byte. -/
inductive Fault where
  -- stack access
  | badIndex (index : Int) (size : Nat)
  | badInsertIndex (index : Int) (size : Nat)
  | emptyPop
  | shortDup (needed : Nat)
  | shortRot (needed : Nat)
  | shortSwap (needed : Nat)
  | shortOver (needed : Nat)
  | shortDropPair
  | badDepth (depth : Int) (size : Nat)
  | shortCheckSig
  | shortMultisig (needed size : Nat)
  | emptyAltPop
  -- numbers
  | longNumber (bytes : Bytes) (limit : Nat)
  | paddedNumber (bytes : Bytes)
  -- instructions and limits
  | cutPush (opcode : UInt8)
  | invalidOpcode (opcode : UInt8)
  | disabled (opcode : UInt8)
  | longElement (size limit : Nat)
  | tooManyOps (limit : Nat)
  | longScript (size limit : Nat)
  | tallStack (size limit : Nat)
  | longPush (size : Nat) (opcode : UInt8)
  | codeSeparator
  -- conditionals and plain failures
  | strayEndIf
  | strayElse
  | noCondition
  | openConditional
  | longCondition (size : Nat)
  | oddCondition
  | returned
  | verifyFailed
  | equalVerifyFailed
  | numEqualVerifyFailed
  | checkSigVerifyFailed
  | checkMultisigVerifyFailed
  | reservedNop (opcode : UInt8)
  -- lock times
  | negativeLock (value : Int)
  | lockWithoutContext
  | lockKind
  | lockUnmet (wanted actual : Nat)
  | finalInput
  | sequenceWithoutContext
  | oldVersion (version : Nat)
  | sequenceDisabled (sequence : Nat)
  | sequenceKind
  | sequenceUnmet (wanted actual : Nat)
  -- signatures and keys
  | looseSignature
  | highS
  | badHashType (hashType : UInt8)
  | badKeyType
  | uncompressedWitnessKey
  | signatureInCode
  | nullFailSingle
  | nullFailMulti
  | badKeyCount (count : Int)
  | badSigCount (count : Int) (keys : Nat)
  | dummyNotEmpty (size : Nat)
  -- spends
  | notPushOnly
  | redeemNotPushOnly
  | falseResult
  | noRedeemScript
  | falseRedeemResult
  | falseWitnessResult
  | extraItems (count : Nat)
  | unexpectedWitness
  | malleatedWitness
  | malleatedRedeem
  | reservedProgram (version : Nat)
  | badProgramLength (size : Nat)
  | emptyWitness
  | programMismatch
  | badWitnessCount (count : Nat)
  | longWitnessItem (size limit : Nat)
deriving DecidableEq, Repr

namespace Fault

def code : Fault → FaultCode
  | badIndex .. | badInsertIndex .. | emptyPop | shortDup _ | shortRot _ | shortSwap _
  | shortOver _ | shortDropPair | badDepth .. | shortCheckSig | shortMultisig .. => .underflow
  | emptyAltPop => .altUnderflow
  | longNumber .. | paddedNumber _ => .scriptNumError
  | cutPush _ | invalidOpcode _ => .badOpcode
  | disabled _ => .disabledOpcode
  | longElement .. | longWitnessItem .. => .pushSize
  | tooManyOps _ => .opCountExceeded
  | longScript .. => .scriptSize
  | tallStack .. => .stackSize
  | longPush .. => .minimalData
  | codeSeparator => .opCodeSeparator
  | strayEndIf | strayElse | noCondition | openConditional => .unbalancedConditional
  | longCondition _ | oddCondition => .minimalIf
  | returned => .opReturn
  | verifyFailed => .verify
  | equalVerifyFailed => .equalVerify
  | numEqualVerifyFailed => .numEqualVerify
  | checkSigVerifyFailed => .checkSigVerify
  | checkMultisigVerifyFailed => .checkMultisigVerify
  | reservedNop _ => .discourageUpgradableNops
  | negativeLock _ => .negativeLocktime
  | lockWithoutContext | lockKind | lockUnmet .. | finalInput | sequenceWithoutContext
  | oldVersion _ | sequenceDisabled _ | sequenceKind | sequenceUnmet .. => .unsatisfiedLocktime
  | looseSignature => .sigDer
  | highS => .sigHighS
  | badHashType _ => .sigHashType
  | badKeyType => .pubkeyType
  | uncompressedWitnessKey => .witnessPubkeyType
  | signatureInCode => .sigFindAndDelete
  | nullFailSingle | nullFailMulti => .nullFail
  | badKeyCount _ => .pubkeyCount
  | badSigCount .. => .sigCount
  | dummyNotEmpty _ => .sigNullDummy
  | notPushOnly | redeemNotPushOnly => .sigPushOnly
  | falseResult | noRedeemScript | falseRedeemResult | falseWitnessResult => .evalFalse
  | extraItems _ => .cleanStack
  | unexpectedWitness => .witnessUnexpected
  | malleatedWitness => .witnessMalleated
  | malleatedRedeem => .witnessMalleatedP2sh
  | reservedProgram _ => .discourageUpgradableWitnessProgram
  | badProgramLength _ => .witnessProgramWrongLength
  | emptyWitness => .witnessProgramWitnessEmpty
  | programMismatch | badWitnessCount _ => .witnessProgramMismatch

def message : Fault → String
  | badIndex index size => s!"index {index} is invalid for stack size {size}"
  | badInsertIndex index size => s!"insert index {index} is invalid for stack size {size}"
  | emptyPop => "attempt to pop from an empty stack"
  | shortDup needed => s!"attempt to dup {needed} stack items"
  | shortRot needed => s!"attempt to rotate {needed} stack items"
  | shortSwap needed => s!"attempt to swap {needed} stack items"
  | shortOver needed => s!"attempt to perform over on {needed} stack items"
  | shortDropPair => "OP_2DROP requires two stack items"
  | badDepth depth size => s!"stack depth {depth} out of range for {size} items"
  | shortCheckSig => "OP_CHECKSIG requires two stack items"
  | shortMultisig needed size => s!"OP_CHECKMULTISIG needs {needed} stack items, have {size}"
  | emptyAltPop => "attempt to pop from an empty alt stack"
  | longNumber bytes limit =>
    s!"numeric value encoded as {Hex.bracketed bytes} is {bytes.length} bytes which exceeds the max allowed of {limit}"
  | paddedNumber bytes =>
    s!"numeric value encoded as {Hex.bracketed bytes} is not minimally encoded"
  | cutPush opcode =>
    s!"opcode {Opcode.name opcode} requires more bytes than the script holds"
  | invalidOpcode opcode => s!"attempt to execute invalid opcode {Opcode.name opcode}"
  | disabled opcode => s!"attempt to execute disabled opcode {Opcode.name opcode}"
  | longElement size limit => s!"element size {size} exceeds max allowed size {limit}"
  | tooManyOps limit => s!"exceeded max operation limit of {limit}"
  | longScript size limit =>
    s!"script size {size} is larger than the max allowed size {limit}"
  | tallStack size limit => s!"combined stack size {size} > max allowed {limit}"
  | longPush size opcode =>
    s!"data push of {size} bytes encoded with opcode {Opcode.name opcode} is not minimal"
  | codeSeparator => "OP_CODESEPARATOR in non-segwit script"
  | strayEndIf => "encountered ENDIF with no matching IF"
  | strayElse => "encountered ELSE with no matching IF"
  | noCondition => "conditional requires a value on the stack"
  | openConditional => "end of script reached in conditional execution"
  | longCondition size => s!"conditional has data of length {size}"
  | oddCondition => "conditional failed"
  | returned => "script returned early"
  | verifyFailed => "OP_VERIFY failed"
  | equalVerifyFailed => "OP_EQUALVERIFY failed"
  | numEqualVerifyFailed => "OP_NUMEQUALVERIFY failed"
  | checkSigVerifyFailed => "OP_CHECKSIGVERIFY failed"
  | checkMultisigVerifyFailed => "OP_CHECKMULTISIGVERIFY failed"
  | reservedNop opcode => s!"{Opcode.name opcode} reserved for soft-fork upgrades"
  | negativeLock value => s!"negative lock time: {value}"
  | lockWithoutContext => "locktime requires a transaction context"
  | lockKind => "mismatched locktime types"
  | lockUnmet wanted actual =>
    s!"locktime requirement not satisfied -- locktime is greater than the transaction locktime: {wanted} > {actual}"
  | finalInput => "transaction input is finalized"
  | sequenceWithoutContext => "sequence lock requires a transaction context"
  | oldVersion version => s!"invalid transaction version: {version}"
  | sequenceDisabled sequence =>
    s!"transaction sequence has sequence locktime disabled bit set: 0x{Hex.ofNat sequence}"
  | sequenceKind => "mismatched sequence lock types"
  | sequenceUnmet wanted actual =>
    s!"sequence lock {wanted} is greater than input sequence {actual}"
  | looseSignature => "signature is not strict DER"
  | highS => "signature S value is unnecessarily high"
  | badHashType hashType => s!"invalid hash type 0x{Hex.ofNat hashType.toNat}"
  | badKeyType => "unsupported public key type"
  | uncompressedWitnessKey => "witness public key must be compressed"
  | signatureInCode => "signature found in script code"
  | nullFailSingle => "signature not empty on failed checksig"
  | nullFailMulti => "not all signatures empty on failed checkmultisig"
  | badKeyCount count => s!"invalid pubkey count {count}"
  | badSigCount count keys => s!"invalid signature count {count} for {keys} keys"
  | dummyNotEmpty size => s!"multisig dummy argument has length {size} instead of 0"
  | notPushOnly => "signature script is not push only"
  | redeemNotPushOnly => "pay-to-script-hash signature script is not push only"
  | falseResult => "false stack entry at end of script execution"
  | noRedeemScript => "empty stack before redeem script"
  | falseRedeemResult => "false stack entry at end of redeem script execution"
  | falseWitnessResult => "witness program must leave exactly one true item"
  | extraItems count => s!"stack contains {count} unexpected items"
  | unexpectedWitness => "witness supplied for a non-witness script"
  | malleatedWitness => "native witness program has a non-empty signature script"
  | malleatedRedeem => "signature script must be exactly a push of the redeem script"
  | reservedProgram version => s!"witness program version {version} is reserved for upgrades"
  | badProgramLength size => s!"version 0 witness program has invalid length {size}"
  | emptyWitness => "witness program requires a non-empty witness"
  | programMismatch => "witness script does not match the program hash"
  | badWitnessCount count => s!"key-hash witness program requires 2 items, got {count}"
  | longWitnessItem size limit =>
    s!"witness item of {size} bytes exceeds max allowed size {limit}"

def report (fault : Fault) : String := fault.code.report fault.message

end Fault

end CoinScript
