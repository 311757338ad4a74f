import CoinScript.Operation
import CoinScript.Stack

/-! # Stack operations

Rearrangements, comparisons and digests of stack items, which depend on nothing but the
stack and the digests in use.
-/
namespace CoinScript.StackOp

/-- Pops two items and tells whether they are equal. -/
def popEqual (s : Stack) : Except Fault (Bool × Stack) := do
  let (a, s) ← s.pop
  let (b, s) ← s.pop
  return (a == b, s)

def run (digests : Digests) (op : StackOp) (s : Stack) : Except Fault Stack :=
  match op with
  | verify => do
    if ← s.getBool (-1) then s.dropTop else .error .verifyFailed
  | drop => s.dropTop
  | dropPair =>
    match s with
    | _ :: _ :: rest => .ok rest
    | _ => .error .shortDropPair
  | dup n => s.dup n
  | copyOver n => s.copyOver n
  | rot n => s.rot n
  | swap n => s.swap n
  | ifDup => do
    let top ← s.peek (-1)
    return if top.isTrue then s.push top else s
  | depth => .ok (s.pushNum s.length)
  | nip => s.nip
  | tuck => s.tuck
  | size => do
    let top ← s.peek (-1)
    return s.pushNum top.length
  | equal => do
    let (same, rest) ← popEqual s
    return rest.pushBool same
  | equalVerify => do
    let (same, rest) ← popEqual s
    if same then return rest else .error .equalVerifyFailed
  | hash op => do
    let (item, rest) ← s.pop
    return rest.push (op.eval digests item)

end CoinScript.StackOp
