import CoinScript.Machine.Encoding

/-! # Signature operations

`CHECKSIG` checks one signature against one key. `CHECKMULTISIG` takes `n` keys and `m`
signatures and walks down both lists, using up a key with each check and a signature
with each success. Both lists are held top first.
-/
namespace CoinScript

namespace Env

/-- Removes the push of a signature from script code that is not a witness's. -/
def removeSignature (env : Env) (code : Script) (sig : Bytes) : Except Fault Script :=
  if env.version = .base then
    let (found, kept) := code.removeAll (Instruction.ofData sig).encode
    if found ≠ 0 ∧ env.flags.has .constScriptCode then .error .signatureInCode else .ok kept
  else .ok code

def removeSignatures (env : Env) (code : Script) (sigs : List Bytes) : Except Fault Script :=
  sigs.foldlM env.removeSignature code

/-- The verdict of the context on a signature; without a context there is none to pass. -/
def verdict (env : Env) (sig key : Bytes) (code : Script) : Bool :=
  match env.context with
  | some ctx => ctx.checkSignature sig key code env.version
  | none => false

/-- Checks a signature once its encoding and that of the key are admitted. -/
def checkSig (env : Env) (sig key : Bytes) (code : Script) : Run Bool := do
  Run.ofExcept (env.checkSignatureEncoding sig)
  Run.ofExcept (env.checkKeyEncoding key)
  Run.emit (.check sig key code env.version)
  return env.verdict sig key code

end Env

namespace Machine

/-- Pushes a verdict or, in the verifying form, fails on a bad one. -/
def settle (verify : Bool) (fault : Fault) (verdict : Bool) (m : Machine) :
    Except Fault Machine :=
  if verify then if verdict then .ok m else .error fault
  else .ok { m with stack := m.stack.pushBool verdict }

def checkSig (env : Env) (verify : Bool) (m : Machine) : Run Machine :=
  match m.stack with
  | key :: sig :: rest => do
    let code ← Run.ofExcept (env.removeSignature m.code sig)
    let verdict ← env.checkSig sig key code
    if !verdict && env.flags.has .nullFail && sig ≠ [] then Run.fail .nullFailSingle
    else Run.ofExcept (settle verify .checkSigVerifyFailed verdict { m with stack := rest })
  | _ => Run.fail .shortCheckSig

/-- The operands of a multisignature, top first, and the operations counted with them. -/
structure Multisig where
  keys : List Bytes
  sigs : List Bytes
  dummy : Bytes
  rest : Stack
  ops : Nat

namespace Multisig

/-- The count that stands `depth` items from the top, the top itself being at one. -/
def countAt (env : Env) (s : Stack) (depth : Nat) : Except Fault Int :=
  match s[depth - 1]? with
  | some item => do
    return Number.clamp32 (← Number.read env.numberFormat item)
  | none => .error (.shortMultisig depth s.length)

/-- Reads the operands off the stack: the number of keys and the keys, the number of
signatures and the signatures, and one item that nothing uses. Each key counts as an
operation. -/
def take (env : Env) (m : Machine) : Except Fault Multisig := do
  let s := m.stack
  let keyCount ← countAt env s 1
  if keyCount < 0 ∨ env.limits.maxKeysPerMultisig < keyCount then
    .error (.badKeyCount keyCount)
  else
    let n := keyCount.toNat
    let ops := m.ops + n
    if env.limits.maxOps < ops then .error (.tooManyOps env.limits.maxOps)
    else
      let sigCount ← countAt env s (n + 2)
      if sigCount < 0 ∨ n < sigCount then .error (.badSigCount sigCount n)
      else
        let k := sigCount.toNat
        match s.drop (n + k + 2) with
        | dummy :: rest =>
          return { keys := (s.drop 1).take n, sigs := (s.drop (n + 2)).take k, dummy, rest, ops }
        | [] => .error (.shortMultisig (n + k + 3) s.length)

end Multisig

/-- Whether the signatures can be matched with the keys in order. The walk stops as soon
as fewer keys than signatures are left. -/
def matchKeys (env : Env) (code : Script) : List Bytes → List Bytes → Run Bool
  | [], _ => return true
  | _ :: _, [] => return false
  | sig :: sigs, key :: keys => do
    let good ← env.checkSig sig key code
    let left := if good then sigs else sig :: sigs
    if keys.length < left.length then return false
    else matchKeys env code left keys
termination_by structural _ keys => keys

def checkMultisig (env : Env) (verify : Bool) (m : Machine) : Run Machine := do
  let ms ← Run.ofExcept (Multisig.take env m)
  let code ← Run.ofExcept (env.removeSignatures m.code ms.sigs)
  let verdict ← matchKeys env code ms.sigs ms.keys
  if !verdict && env.flags.has .nullFail && ms.sigs.any (· ≠ []) then Run.fail .nullFailMulti
  else if env.flags.has .nullDummy && ms.dummy ≠ [] then
    Run.fail (.dummyNotEmpty ms.dummy.length)
  else
    Run.ofExcept (settle verify .checkMultisigVerifyFailed verdict
      { m with stack := ms.rest, ops := ms.ops })

end Machine

end CoinScript
