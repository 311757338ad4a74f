import CoinScript.Machine.LockTime
import CoinScript.Machine.Signature
import CoinScript.Operation.Number
import CoinScript.Operation.Stack

/-! # Execution

A script executes instruction by instruction. Every instruction is accepted first, also
in branches that are not taken; then it pushes its data or acts; and last the size of the
stacks is checked.
-/
namespace CoinScript.Machine

/-- An operation on the main stack alone. -/
def onStack (op : Stack → Except Fault Stack) (m : Machine) : Except Fault Machine := do
  return { m with stack := ← op m.stack }

/-- What an opcode other than a push does. -/
def act (env : Env) (m : Machine) (here : Located) : Run Machine :=
  let opcode := here.instruction.opcode
  match Operation.ofOpcode opcode with
  | .constant n => return { m with stack := m.stack.pushNum n }
  | .nop => return m
  | .upgradableNop => Run.ofExcept (upgradableNop env opcode m)
  | .openIf negated => Run.ofExcept (openIf env negated m)
  | .switch => Run.ofExcept (switchBranch m)
  | .closeIf => Run.ofExcept (closeIf m)
  | .earlyReturn => Run.fail .returned
  | .lockTime => Run.ofExcept (lockTimeVerify env opcode m)
  | .sequence => Run.ofExcept (sequenceVerify env opcode m)
  | .toAlt => Run.ofExcept (toAlt m)
  | .fromAlt => Run.ofExcept (fromAlt m)
  | .stack op => Run.ofExcept (onStack (op.run env.digests) m)
  | .number op => Run.ofExcept (onStack (op.run env.numberFormat) m)
  | .codeSeparator => return { m with code := here.rest }
  | .checkSig verify => checkSig env verify m
  | .checkMultisig verify => checkMultisig env verify m
  | .invalid => Run.fail (.invalidOpcode opcode)

/-- The checks that every instruction passes, executed or not, and the count of
operations. -/
def accept (env : Env) (m : Machine) (ins : Instruction) : Except Fault Machine :=
  let ops := if Opcode.isCounted ins.opcode then m.ops + 1 else m.ops
  if ins.cut then .error (.cutPush ins.opcode)
  else if env.limits.maxElementSize < ins.data.length then
    .error (.longElement ins.data.length env.limits.maxElementSize)
  else if Opcode.isCounted ins.opcode ∧ env.limits.maxOps < ops then
    .error (.tooManyOps env.limits.maxOps)
  else if Opcode.isDisabled ins.opcode ∧ (m.executing ∨ env.limits.disabledPolicy = .always) then
    .error (.disabled ins.opcode)
  else if ins.opcode = Opcode.codeSeparator ∧ env.version = .base
      ∧ env.flags.has .constScriptCode then .error .codeSeparator
  else .ok { m with ops }

/-- Pushes the data of an instruction. -/
def pushData (env : Env) (m : Machine) (ins : Instruction) : Except Fault Machine :=
  if env.requireMinimal && !ins.isMinimal then .error (.longPush ins.data.length ins.opcode)
  else .ok { m with stack := m.stack.push ins.data }

/-- Executes an instruction; where a branch is not taken, only nesting is followed. -/
def perform (env : Env) (m : Machine) (here : Located) : Run Machine :=
  if m.executing && here.instruction.isPush then Run.ofExcept (pushData env m here.instruction)
  else if m.executing || Opcode.isConditional here.instruction.opcode then act env m here
  else return m

def checkHeight (env : Env) (m : Machine) : Except Fault Machine :=
  let height := m.stack.length + m.alt.length
  if env.limits.maxStackSize < height then .error (.tallStack height env.limits.maxStackSize)
  else .ok m

def step (env : Env) (m : Machine) (here : Located) : Run Machine := do
  Run.emit (.step env.script here m.executing m.stack.length)
  let m ← Run.ofExcept (accept env m here.instruction)
  let m ← perform env m here
  Run.ofExcept (checkHeight env m)

/-- Executes the script on a stack. No conditional may be open at its end. -/
def run (env : Env) (stack : Stack) : Run Machine :=
  if env.limits.maxScriptSize < env.script.length then
    Run.fail (.longScript env.script.length env.limits.maxScriptSize)
  else do
    let m ← env.script.located.foldlM (step env) (start env stack)
    if m.branches = [] then return m else Run.fail .openConditional

end Machine

/-- The stack that a script leaves. -/
def Env.execute (env : Env) (stack : Stack) : Run Stack := do
  return (← Machine.run env stack).stack

end CoinScript
