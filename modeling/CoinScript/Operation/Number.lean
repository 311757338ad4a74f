import CoinScript.Operation
import CoinScript.Stack

/-! # Number operations

Operands are taken from the top of the stack, the last operand first, in a format that
bounds their length. Results are pushed in the shortest form, however long it is.
-/
namespace CoinScript

/-- Takes the depth of an item, which has to lie below what then is the top. -/
def Stack.takeDepth (s : Stack) (format : Number.Format) : Except Fault (Nat × Stack) := do
  let (n, rest) ← s.takeNum format
  let depth := Number.clamp32 n
  if depth < 0 ∨ rest.length ≤ depth then .error (.badDepth depth rest.length)
  else return (depth.toNat, rest)

namespace NumberOp

def run (format : Number.Format) (op : NumberOp) (s : Stack) : Except Fault Stack :=
  match op with
  | unary op => do
    let (n, s) ← s.takeNum format
    return s.pushNum (op.eval n)
  | unaryTest op => do
    let (n, s) ← s.takeNum format
    return s.pushBool (op.eval n)
  | binary op => do
    let (b, s) ← s.takeNum format
    let (a, s) ← s.takeNum format
    return s.pushNum (op.eval a b)
  | binaryTest op => do
    let (b, s) ← s.takeNum format
    let (a, s) ← s.takeNum format
    return s.pushBool (op.eval a b)
  | equalVerify => do
    let (b, s) ← s.takeNum format
    let (a, s) ← s.takeNum format
    if a = b then return s else .error .numEqualVerifyFailed
  | within => do
    let (upper, s) ← s.takeNum format
    let (lower, s) ← s.takeNum format
    let (n, s) ← s.takeNum format
    return s.pushBool (lower ≤ n && n < upper)
  | pick => do
    let (depth, s) ← s.takeDepth format
    s.pick depth
  | roll => do
    let (depth, s) ← s.takeDepth format
    s.roll depth

end NumberOp

end CoinScript
