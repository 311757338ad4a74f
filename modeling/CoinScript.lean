import CoinScript.Branches
import CoinScript.Bytes
import CoinScript.Bytes.Lemmas
import CoinScript.Context
import CoinScript.CriticalData
import CoinScript.Curve
import CoinScript.Curve.Library
import CoinScript.Digest
import CoinScript.Digest.Block
import CoinScript.Digest.Ripemd160
import CoinScript.Digest.Sha1
import CoinScript.Digest.Sha256
import CoinScript.Fault
import CoinScript.Flags
import CoinScript.Hex
import CoinScript.Instruction
import CoinScript.Key
import CoinScript.Limits
import CoinScript.Machine
import CoinScript.Machine.Encoding
import CoinScript.Machine.Flow
import CoinScript.Machine.LockTime
import CoinScript.Machine.Signature
import CoinScript.Machine.Step
import CoinScript.Number
import CoinScript.Opcode
import CoinScript.Operation
import CoinScript.Operation.Number
import CoinScript.Operation.Stack
import CoinScript.ParseFault
import CoinScript.Run
import CoinScript.Script
import CoinScript.Script.Pattern
import CoinScript.Script.Text
import CoinScript.Signature
import CoinScript.Signature.Der
import CoinScript.Signature.Nonce
import CoinScript.Spend
import CoinScript.Stack
import CoinScript.Text
import CoinScript.Truth
import CoinScript.Wire
import CoinScript.Witness
import CoinScript.Word
import CoinScript.Proofs.BigEndian
import CoinScript.Proofs.Bookkeeping
import CoinScript.Proofs.Bounds
import CoinScript.Proofs.CanonicalSignature
import CoinScript.Proofs.Conditional
import CoinScript.Proofs.CriticalRecord
import CoinScript.Proofs.Decoding
import CoinScript.Proofs.ExactArithmetic
import CoinScript.Proofs.ExecutionFault
import CoinScript.Proofs.FieldRoot
import CoinScript.Proofs.FieldSequence
import CoinScript.Proofs.Judgement
import CoinScript.Proofs.KeyEncoding
import CoinScript.Proofs.KeyHashSpend
import CoinScript.Proofs.LaxSignature
import CoinScript.Proofs.LockTimes
import CoinScript.Proofs.LowS
import CoinScript.Proofs.MissingOperands
import CoinScript.Proofs.Multisig
import CoinScript.Proofs.MultisigInPlace
import CoinScript.Proofs.Nesting
import CoinScript.Proofs.NumberWidth
import CoinScript.Proofs.Offsets
import CoinScript.Proofs.Outcome
import CoinScript.Proofs.OutputScript
import CoinScript.Proofs.PatternDecoding
import CoinScript.Proofs.PushOnly
import CoinScript.Proofs.Rearrangement
import CoinScript.Proofs.Relaxation
import CoinScript.Proofs.Removal
import CoinScript.Proofs.RuleNames
import CoinScript.Proofs.RuleUse
import CoinScript.Proofs.ScriptCode
import CoinScript.Proofs.ScriptHashSpend
import CoinScript.Proofs.ShortestNumber
import CoinScript.Proofs.SigOpBound
import CoinScript.Proofs.SignatureOps
import CoinScript.Proofs.SmallestPush
import CoinScript.Proofs.SoftFork
import CoinScript.Proofs.StackEffect
import CoinScript.Proofs.StackFrame
import CoinScript.Proofs.StaticValidity
import CoinScript.Proofs.Step
import CoinScript.Proofs.StraightLine
import CoinScript.Proofs.StrictSignature
import CoinScript.Proofs.TextForm
import CoinScript.Proofs.Trace
import CoinScript.Proofs.TruthOfNumbers
import CoinScript.Proofs.WireForm
import CoinScript.Proofs.WitnessFormat
import CoinScript.Proofs.WitnessSpend
import CoinScript.Proofs.WrittenSignature
