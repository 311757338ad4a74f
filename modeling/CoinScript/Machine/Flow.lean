import CoinScript.Machine

/-! # Control flow

Conditionals, the alternate stack and opcodes that are reserved for later use.
-/
namespace CoinScript.Machine

/-- Under the rule for minimal conditions, only the empty item and the byte one decide. -/
def checkCondition (env : Env) (item : Bytes) : Except Fault Unit :=
  if env.version = .witnessV0 ∧ env.flags.has .minimalIf then
    match item with
    | [] => .ok ()
    | [b] => if b = 1 then .ok () else .error .oddCondition
    | _ => .error (.longCondition item.length)
  else .ok ()

/-- Opens a conditional. Where the enclosing branch is not taken, neither is this one, and
no condition is looked at. -/
def openIf (env : Env) (negated : Bool) (m : Machine) : Except Fault Machine :=
  if m.executing then
    match m.stack with
    | [] => .error .noCondition
    | condition :: rest => do
      checkCondition env condition
      return { m with stack := rest, branches := m.branches.enter (condition.isTrue != negated) }
  else .ok { m with branches := m.branches.enter false }

def switchBranch (m : Machine) : Except Fault Machine := do
  return { m with branches := ← m.branches.toggle }

def closeIf (m : Machine) : Except Fault Machine := do
  let (_, branches) ← m.branches.leave
  return { m with branches }

def toAlt (m : Machine) : Except Fault Machine := do
  let (item, rest) ← m.stack.pop
  return { m with stack := rest, alt := m.alt.push item }

def fromAlt (m : Machine) : Except Fault Machine :=
  match m.alt with
  | [] => .error .emptyAltPop
  | item :: rest => .ok { m with stack := m.stack.push item, alt := rest }

/-- An opcode that does nothing so far, and so is discouraged. -/
def upgradableNop (env : Env) (opcode : UInt8) (m : Machine) : Except Fault Machine :=
  if env.flags.has .discourageUpgradableNops then .error (.reservedNop opcode) else .ok m

end CoinScript.Machine
