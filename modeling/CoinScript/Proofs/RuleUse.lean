import CoinScript.Machine.Step

/-! # Rules that an execution reads

Some rules are about the judgement of a spend alone. No execution reads them: under two sets of
rules that agree on all others, a script takes the same steps to the same end.
-/
namespace CoinScript

/-- Whether a rule says how a spend is judged, and nothing about how a script executes. -/
def Rule.isJudgement : Rule → Bool
  | .p2sh | .sigPushOnly | .cleanStack | .witness | .discourageUpgradableWitnessProgram => true
  | _ => false

/-- Sets of rules that no execution tells apart. -/
def Flags.Alike (f g : Flags) : Prop := ∀ rule, rule.isJudgement = false → f.has rule = g.has rule

/-- The same environment under other rules. -/
def Env.under (env : Env) (flags : Flags) : Env := { env with flags }

variable {env : Env} {flags : Flags} (h : flags.Alike env.flags)

include h

namespace Env

theorem requireMinimal_under : (env.under flags).requireMinimal = env.requireMinimal :=
  h .minimalData rfl

theorem numberFormat_under : (env.under flags).numberFormat = env.numberFormat := by
  rw [numberFormat, requireMinimal_under h]
  rfl

theorem lockFormat_under : (env.under flags).lockFormat = env.lockFormat := by
  rw [lockFormat, requireMinimal_under h]
  rfl

theorem removeSignature_under :
    (env.under flags).removeSignature = env.removeSignature := by
  funext code sig
  simp only [removeSignature, under, h .constScriptCode rfl]

theorem checkSignatureEncoding_under :
    (env.under flags).checkSignatureEncoding = env.checkSignatureEncoding := by
  funext sig
  simp only [checkSignatureEncoding, under, h .derSig rfl, h .lowS rfl, h .strictEnc rfl]

theorem checkKeyEncoding_under :
    (env.under flags).checkKeyEncoding = env.checkKeyEncoding := by
  funext key
  simp only [checkKeyEncoding, under, h .strictEnc rfl, h .witnessPubkeyType rfl]
  rfl

theorem checkSig_under : (env.under flags).checkSig = env.checkSig := by
  funext sig key code
  rw [checkSig, checkSignatureEncoding_under h, checkKeyEncoding_under h]
  rfl

end Env

namespace Machine

variable (m : Machine)

section Signatures

theorem checkSig_under (verify : Bool) : checkSig (env.under flags) verify m =
    checkSig env verify m := by
  unfold checkSig
  rw [Env.removeSignature_under h, Env.checkSig_under h]
  simp only [Env.under, h .nullFail rfl]

theorem Multisig.take_under : take (env.under flags) m = take env m := by
  have hcount (depth : Nat) : countAt (env.under flags) m.stack depth =
      countAt env m.stack depth := by
    unfold countAt
    rw [Env.numberFormat_under h]
  simp only [take, hcount]
  rfl

theorem matchKeys_under (code : Script) (sigs keys : List Bytes) :
    matchKeys (env.under flags) code sigs keys = matchKeys env code sigs keys := by
  induction keys generalizing sigs with
  | nil => cases sigs <;> rfl
  | cons key keys ih =>
    cases sigs with
    | nil => rfl
    | cons sig sigs => simp only [matchKeys, Env.checkSig_under h, ih]

theorem checkMultisig_under (verify : Bool) :
    checkMultisig (env.under flags) verify m = checkMultisig env verify m := by
  simp only [checkMultisig, Multisig.take_under h, Env.removeSignatures,
    Env.removeSignature_under h, matchKeys_under h]
  simp only [Env.under, h .nullFail rfl, h .nullDummy rfl]

end Signatures

section Flow

theorem openIf_under (negated : Bool) : openIf (env.under flags) negated m =
    openIf env negated m := by
  have hcheck (item : Bytes) : checkCondition (env.under flags) item = checkCondition env item := by
    simp only [checkCondition, Env.under, h .minimalIf rfl]
  simp only [openIf, hcheck]

theorem upgradableNop_under (opcode : UInt8) : upgradableNop (env.under flags) opcode m =
    upgradableNop env opcode m := by
  simp only [upgradableNop, Env.under, h .discourageUpgradableNops rfl]

theorem lockOperand_under : lockOperand (env.under flags) m = lockOperand env m := by
  rw [lockOperand, Env.lockFormat_under h]
  rfl

theorem lockTimeVerify_under (opcode : UInt8) : lockTimeVerify (env.under flags) opcode m =
    lockTimeVerify env opcode m := by
  unfold lockTimeVerify
  rw [lockOperand_under h, upgradableNop_under h]
  simp only [Env.under, h .checkLockTimeVerify rfl]

theorem sequenceVerify_under (opcode : UInt8) : sequenceVerify (env.under flags) opcode m =
    sequenceVerify env opcode m := by
  unfold sequenceVerify
  rw [lockOperand_under h, upgradableNop_under h]
  simp only [Env.under, h .checkSequenceVerify rfl]

end Flow

section Execution

variable (here : Located)

theorem act_under : act (env.under flags) m here = act env m here := by
  simp only [act, upgradableNop_under h, openIf_under h, lockTimeVerify_under h,
    sequenceVerify_under h, Env.numberFormat_under h, checkSig_under h, checkMultisig_under h]
  rfl

theorem accept_under (ins : Instruction) : accept (env.under flags) m ins = accept env m ins := by
  simp only [accept, Env.under, h .constScriptCode rfl]

theorem perform_under : perform (env.under flags) m here = perform env m here := by
  simp only [perform, pushData, Env.requireMinimal_under h, act_under h]

theorem step_under : step (env.under flags) m here = step env m here := by
  simp only [step, accept_under h, perform_under h]
  rfl

theorem run_under (stack : Stack) : run (env.under flags) stack = run env stack := by
  have hstep : step (env.under flags) = step env := by
    funext m here
    exact step_under h m here
  unfold run
  rw [hstep]
  rfl

end Execution

end Machine

/-- An execution takes the same steps, makes the same checks and ends the same way under rules
that differ only in how a spend is judged. -/
theorem Env.execute_under (stack : Stack) :
    (env.under flags).execute stack = env.execute stack := by
  unfold execute
  rw [Machine.run_under h]

end CoinScript
