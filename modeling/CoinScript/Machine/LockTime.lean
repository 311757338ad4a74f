import CoinScript.Machine.Flow

/-! # Lock times

Two opcodes compare the top item, which stays on the stack, with the transaction: one
with its lock time, the other with the sequence number of the input. Each is a reserved
opcode as long as its rule is off.
-/
namespace CoinScript.Machine

/-- Lock times below are block heights, the others are times in seconds. -/
def lockTimeThreshold : Nat := 500000000

def finalSequence : UInt32 := 0xffffffff

/-- The bit of a sequence number that switches its lock off. -/
def sequenceDisabledBit : Nat := 0x80000000

/-- The bit of a sequence number that makes its lock a time. -/
def sequenceTimeBit : Nat := 0x400000

/-- The bits of a sequence number that hold the lock. -/
def sequenceMask : Nat := sequenceTimeBit ||| 0xffff

/-- The operand of a lock time, which is not negative and may have five bytes. -/
def lockOperand (env : Env) (m : Machine) : Except Fault Nat := do
  let n ← m.stack.getNum (-1) env.lockFormat
  if n < 0 then .error (.negativeLock n) else return n.toNat

def checkLockTime (ctx : TxContext) (lock : Nat) : Except Fault Unit :=
  let actual := ctx.lockTime.toNat
  if ¬(actual < lockTimeThreshold ↔ lock < lockTimeThreshold) then .error .lockKind
  else if actual < lock then .error (.lockUnmet lock actual)
  else if ctx.sequence = finalSequence then .error .finalInput
  else .ok ()

def checkSequence (ctx : TxContext) (lock : Nat) : Except Fault Unit :=
  let sequence := ctx.sequence.toNat
  let actual := sequence &&& sequenceMask
  let wanted := lock &&& sequenceMask
  if ctx.version < 2 then .error (.oldVersion ctx.version.toNat)
  else if sequence &&& sequenceDisabledBit ≠ 0 then .error (.sequenceDisabled sequence)
  else if ¬(actual < sequenceTimeBit ↔ wanted < sequenceTimeBit) then .error .sequenceKind
  else if actual < wanted then .error (.sequenceUnmet wanted actual)
  else .ok ()

def lockTimeVerify (env : Env) (opcode : UInt8) (m : Machine) : Except Fault Machine :=
  if env.flags.has .checkLockTimeVerify then do
    let lock ← lockOperand env m
    match env.context with
    | none => .error .lockWithoutContext
    | some ctx =>
      checkLockTime ctx lock
      return m
  else upgradableNop env opcode m

def sequenceVerify (env : Env) (opcode : UInt8) (m : Machine) : Except Fault Machine :=
  if env.flags.has .checkSequenceVerify then do
    let lock ← lockOperand env m
    if lock &&& sequenceDisabledBit ≠ 0 then return m
    else match env.context with
      | none => .error .sequenceWithoutContext
      | some ctx =>
        checkSequence ctx lock
        return m
  else upgradableNop env opcode m

end CoinScript.Machine
