import CoinScript.Machine.Step
import CoinScript.Script.Pattern
import CoinScript.Witness

/-! # Spends

An input spends an output when its signature script and then the output's script leave a
true item. An output may instead name a script by its hash, which the signature script
then supplies, or a witness program, which the witness then has to satisfy. Which of
these apply is up to the rules in force.
-/
namespace CoinScript

structure Spend where
  scriptSig : Script
  witness : Witness := []
  scriptPubkey : Script
  limits : Limits := {}
  flags : Flags
  context : Option TxContext := none
  digests : Digests := .standard

namespace Spend

def execute (spend : Spend) (version : SigVersion) (script : Script) (stack : Stack) : Run Stack :=
  let env : Env :=
    { limits := spend.limits, flags := spend.flags, version, context := spend.context,
      digests := spend.digests, script }
  env.execute stack

/-- The script of a version 0 program and the stack it starts on. A 32-byte program is the
digest of a script, which is the last item of the witness; a 20-byte program is the hash of
a key. -/
def programScript (spend : Spend) (program : Bytes) : Run (Script × Witness) :=
  if program.length = 32 then
    match spend.witness.getLast? with
    | none => Run.fail .emptyWitness
    | some script =>
      if spend.digests.sha256 script = program then do
        Run.emit (.note .scriptHashProgram)
        return (script, spend.witness.dropLast)
      else Run.fail .programMismatch
  else if program.length = 20 then
    if spend.witness.length = 2 then do
      Run.emit (.note .keyHashProgram)
      return (Script.payToKeyHash program, spend.witness)
    else Run.fail (.badWitnessCount spend.witness.length)
  else Run.fail (.badProgramLength program.length)

/-- No item of a witness may be longer than what a script could push. -/
def checkItems (spend : Spend) (items : Witness) : Except Fault Unit :=
  match items.find? (fun item => spend.limits.maxElementSize < item.length) with
  | some item => .error (.longWitnessItem item.length spend.limits.maxElementSize)
  | none => .ok ()

/-- Judges a witness program. Programs of later versions are anyone's to spend, unless that
is discouraged. -/
def verifyProgram (spend : Spend) (version : Nat) (program : Bytes) : Run Unit :=
  if version = 0 then do
    let (script, items) ← spend.programScript program
    Run.ofExcept (spend.checkItems items)
    let stack ← spend.execute .witnessV0 script (Stack.ofItems items)
    if stack.length = 1 ∧ stack.topIsTrue then return () else Run.fail .falseWitnessResult
  else do
    Run.emit (.note (.anyoneCanSpend version))
    if spend.flags.has .discourageUpgradableWitnessProgram then
      Run.fail (.reservedProgram version)
    else return ()

/-- What a stage of the judgement leaves: the stack, and whether a witness program has been
judged. -/
structure Stage where
  stack : Stack
  usedWitness : Bool

/-- Judges `script` as a witness program, if it is one and the rules know of witnesses. The
signature script is then fixed by `clean`, and one item is left, whatever the stack. -/
def witnessStage (spend : Spend) (script : Script) (clean : Bool) (fault : Fault)
    (stack : Stack) : Run Stage :=
  match script.witnessProgram? with
  | some (version, program) =>
    if spend.flags.has .witness then
      if clean then do
        spend.verifyProgram version program
        return ⟨stack.truncate 1, true⟩
      else Run.fail fault
    else return ⟨stack, false⟩
  | none => return ⟨stack, false⟩

/-- Executes the script that the signature script has left on top of `stack`. -/
def redeemStage (spend : Spend) (stack : Stack) : Run Stage :=
  if spend.scriptSig.isPushOnly then
    match stack with
    | [] => Run.fail .noRedeemScript
    | redeem :: rest => do
      let stack ← spend.execute .base redeem rest
      if stack.topIsTrue then
        spend.witnessStage redeem (spend.scriptSig = (Instruction.ofData redeem).encode)
          .malleatedRedeem stack
      else Run.fail .falseRedeemResult
  else Run.fail .redeemNotPushOnly

/-- The rules on what may be left over at the end. -/
def checkEnd (spend : Spend) (stage : Stage) : Except Fault Unit :=
  if spend.flags.has .cleanStack ∧ stage.stack.length ≠ 1 then
    .error (.extraItems (stage.stack.length - 1))
  else if spend.flags.has .witness ∧ !stage.usedWitness ∧ spend.witness ≠ [] then
    .error .unexpectedWitness
  else .ok ()

def judge (spend : Spend) : Run Unit :=
  if spend.flags.has .sigPushOnly && !spend.scriptSig.isPushOnly then Run.fail .notPushOnly
  else do
    let unlocked ← spend.execute .base spend.scriptSig []
    let stack ← spend.execute .base spend.scriptPubkey unlocked
    if stack.topIsTrue then
      let native ← spend.witnessStage spend.scriptPubkey (spend.scriptSig = []) .malleatedWitness
        stack
      let stage ←
        if spend.flags.has .p2sh && spend.scriptPubkey.isScriptHash then
          spend.redeemStage unlocked
        else pure native
      Run.ofExcept (spend.checkEnd stage)
    else Run.fail .falseResult

/-- Verifies a spend. A refusal leaves a note. -/
def verify (spend : Spend) : Run Unit :=
  let run := spend.judge
  match run.result with
  | .ok () => run
  | .error fault => ⟨run.events ++ [.note (.refused fault spend.scriptPubkey)], .error fault⟩

end Spend

end CoinScript
