import CoinScript.Branches
import CoinScript.Flags
import CoinScript.Limits
import CoinScript.Operation
import CoinScript.Run
import CoinScript.Stack

/-! # The script machine

What stays fixed while a script executes, and the state that its instructions change.
-/
namespace CoinScript

structure Env where
  limits : Limits := {}
  flags : Flags
  version : SigVersion := .base
  context : Option TxContext := none
  digests : Digests := .standard
  script : Script

namespace Env

/-- Whether numbers and pushes have to be in their shortest form. -/
def requireMinimal (env : Env) : Bool := env.flags.has .minimalData

/-- The operands that numeric opcodes accept. -/
def numberFormat (env : Env) : Number.Format := ⟨env.limits.maxNumSize, env.requireMinimal⟩

/-- The operands that lock-time opcodes accept. -/
def lockFormat (env : Env) : Number.Format := ⟨Limits.lockTimeNumSize, env.requireMinimal⟩

end Env

structure Machine where
  stack : Stack
  alt : Stack := []
  branches : Branches := []
  /-- The part of the script that signatures cover: all that follows the last executed
  code separator. -/
  code : Script
  /-- Operations counted so far. -/
  ops : Nat := 0
deriving DecidableEq

namespace Machine

def start (env : Env) (stack : Stack) : Machine := { stack, code := env.script }

/-- Whether every open conditional is in a branch that is taken. -/
def executing (m : Machine) : Bool := m.branches.allTaken

/-- The offset in the script at which the signed part starts. -/
def codeOffset (env : Env) (m : Machine) : Nat := env.script.length - m.code.length

end Machine

end CoinScript
