import CoinScript.Proofs.Bounds
import CoinScript.Proofs.OutputScript

/-! # Stages of a judgement

A spend is accepted when each stage of its judgement goes through: the two scripts, the witness
program or the redeem script if there is one, and the check of what is left over. For an output
that names a script by its hash, the stages come down to the execution of that script.
-/
namespace CoinScript

theorem Limits.Within.of_eq {tight loose : Limits} (h : loose = tight) : tight.Within loose := by
  rw [h]
  exact .refl _

namespace Run

variable {α β : Type} {c : Prop} [Decidable c] {run : Run α} {fault : Fault} {a : α}

theorem ite_fail_eq_ok_iff :
    (if c then run else fail fault).result = .ok a ↔ c ∧ run.result = .ok a := by
  by_cases h : c <;> simp [h]

theorem fail_ite_eq_ok_iff :
    (if c then fail fault else run).result = .ok a ↔ ¬c ∧ run.result = .ok a := by
  by_cases h : c <;> simp [h]

/-- Only the value that a run ends in matters to what follows. -/
theorem bind_congr_result {f g : α → Run β} (h : ∀ a, run.result = .ok a → f a = g a) :
    run >>= f = run >>= g := by
  rw [bind_eq, bind_eq]
  unfold andThen
  cases hrun : run.result with
  | ok a =>
    dsimp only
    rw [h a hrun]
  | error => rfl

end Run

namespace Spend

variable {spend : Spend} {script : Script} {clean : Bool} {fault : Fault} {stack : Stack}
  {stage : Stage} {version : Nat} {program : Bytes}

section Stages

theorem witnessStage_of_rule (h : spend.flags.has .witness = false) :
    spend.witnessStage script clean fault stack = pure ⟨stack, false⟩ := by
  unfold witnessStage
  split
  · rw [h]
    rfl
  · rfl

theorem witnessStage_of_none (h : script.witnessProgram? = none) :
    spend.witnessStage script clean fault stack = pure ⟨stack, false⟩ := by
  rw [witnessStage, h]

theorem witnessStage_of_program (hrule : spend.flags.has .witness = true)
    (h : script.witnessProgram? = some (version, program)) :
    spend.witnessStage script clean fault stack =
      if clean then do
        spend.verifyProgram version program
        return ⟨stack.truncate 1, true⟩
      else Run.fail fault := by
  rw [witnessStage, h]
  simp only [hrule, ↓reduceIte]

theorem witnessStage_program_eq_ok_iff (hrule : spend.flags.has .witness = true)
    (h : script.witnessProgram? = some (version, program)) :
    (spend.witnessStage script clean fault stack).result = .ok stage ↔
      clean = true ∧ (spend.verifyProgram version program).result = .ok () ∧
        stage = ⟨stack.truncate 1, true⟩ := by
  rw [witnessStage_of_program hrule h, Run.ite_fail_eq_ok_iff, Run.bind_ok]
  refine and_congr_right fun _ => ?_
  constructor
  · rintro ⟨_, hverify, hstage⟩
    cases hstage
    exact ⟨hverify, rfl⟩
  · rintro ⟨hverify, rfl⟩
    exact ⟨(), hverify, rfl⟩

theorem redeemStage_eq_ok_iff : (spend.redeemStage stack).result = .ok stage ↔
    spend.scriptSig.isPushOnly = true ∧ ∃ redeem below left, stack = redeem :: below ∧
      (spend.execute .base redeem below).result = .ok left ∧ left.topIsTrue = true ∧
      (spend.witnessStage redeem (spend.scriptSig = (Instruction.ofData redeem).encode)
        .malleatedRedeem left).result = .ok stage := by
  unfold redeemStage
  rw [Run.ite_fail_eq_ok_iff]
  refine and_congr_right fun _ => ?_
  cases stack with
  | nil => simp
  | cons redeem below =>
    simp only [Run.bind_ok, Run.ite_fail_eq_ok_iff, List.cons.injEq]
    grind

theorem checkEnd_eq_ok_iff : spend.checkEnd stage = .ok () ↔
    (spend.flags.has .cleanStack = true → stage.stack.length = 1) ∧
    (spend.flags.has .witness = true → stage.usedWitness = false → spend.witness = []) := by
  unfold checkEnd
  grind

theorem verify_eq_ok_iff : spend.verify.result = .ok () ↔
    (spend.flags.has .sigPushOnly = true → spend.scriptSig.isPushOnly = true) ∧
    ∃ unlocked stack native,
      (spend.execute .base spend.scriptSig []).result = .ok unlocked ∧
      (spend.execute .base spend.scriptPubkey unlocked).result = .ok stack ∧
      stack.topIsTrue = true ∧
      (spend.witnessStage spend.scriptPubkey (spend.scriptSig = []) .malleatedWitness
        stack).result = .ok native ∧
      (spend.ending unlocked native).result = .ok () := by
  rw [result_verify, judge_eq, Run.fail_ite_eq_ok_iff]
  simp only [Run.bind_ok, Run.ite_fail_eq_ok_iff]
  grind

theorem ending_of_scriptHash (hrule : spend.flags.has .p2sh = true)
    (h : spend.scriptPubkey.isScriptHash = true) (unlocked : Stack) (native : Stage) :
    spend.ending unlocked native =
      spend.redeemStage unlocked >>= fun stage => Run.ofExcept (spend.checkEnd stage) := by
  simp only [ending, hrule, h, Bool.and_self, ↓reduceIte]

theorem ending_of_other (h : spend.scriptPubkey.isScriptHash = false) (unlocked : Stack)
    (native : Stage) : spend.ending unlocked native = Run.ofExcept (spend.checkEnd native) := by
  simp only [ending, h, Bool.and_false, Bool.false_eq_true, ↓reduceIte]

end Stages

section ScriptHashes

variable {hash : Bytes}

theorem execute_scriptHash (hlimits : ({} : Limits).Within spend.limits) (hhash : hash.length = 20)
    (hpubkey : spend.scriptPubkey = Script.payToScriptHash hash) {unlocked : Stack} :
    (∃ left, (spend.execute .base spend.scriptPubkey unlocked).result = .ok left ∧
      left.topIsTrue = true) ↔
    ∃ redeem below, unlocked = redeem :: below ∧
      below.length + 2 ≤ spend.limits.maxStackSize ∧ spend.digests.hash160 redeem = hash := by
  have hexecute (left : Stack) :
      (spend.execute .base spend.scriptPubkey unlocked).result = .ok left ↔
        ∃ redeem below, unlocked = redeem :: below ∧
          below.length + 2 ≤ spend.limits.maxStackSize ∧
          left = Bytes.ofBool (hash == spend.digests.hash160 redeem) :: below :=
    Machine.execute_payToScriptHash hlimits hhash hpubkey
  constructor
  · rintro ⟨left, hleft, htrue⟩
    obtain ⟨redeem, below, rfl, hheight, rfl⟩ := (hexecute left).mp hleft
    have hsame : (hash == spend.digests.hash160 redeem) = true := by
      rwa [Stack.topIsTrue, Bytes.isTrue_ofBool] at htrue
    exact ⟨redeem, below, rfl, hheight, (beq_iff_eq.mp hsame).symm⟩
  · rintro ⟨redeem, below, rfl, hheight, rfl⟩
    refine ⟨_, (hexecute _).mpr ⟨redeem, below, rfl, hheight, rfl⟩, ?_⟩
    rw [Stack.topIsTrue, Bytes.isTrue_ofBool, beq_self_eq_true]

/-- An output that names a script by its hash is spent by what spends that script. -/
theorem verify_scriptHash_eq_ok_iff (hlimits : ({} : Limits).Within spend.limits)
    (hrule : spend.flags.has .p2sh = true) (hhash : hash.length = 20)
    (hpubkey : spend.scriptPubkey = Script.payToScriptHash hash) :
    spend.verify.result = .ok () ↔ spend.scriptSig.isPushOnly = true ∧
      ∃ redeem below left stage,
        (spend.execute .base spend.scriptSig []).result = .ok (redeem :: below) ∧
        below.length + 2 ≤ spend.limits.maxStackSize ∧ spend.digests.hash160 redeem = hash ∧
        (spend.execute .base redeem below).result = .ok left ∧ left.topIsTrue = true ∧
        (spend.witnessStage redeem (spend.scriptSig = (Instruction.ofData redeem).encode)
          .malleatedRedeem left).result = .ok stage ∧
        spend.checkEnd stage = .ok () := by
  have hscriptHash : spend.scriptPubkey.isScriptHash = true :=
    Script.isScriptHash_iff.mpr ⟨hash, hhash, hpubkey⟩
  have hnone : spend.scriptPubkey.witnessProgram? = none := by
    rw [hpubkey, Script.witnessProgram?_payToScriptHash]
  rw [verify_eq_ok_iff]
  simp only [witnessStage_of_none hnone, ending_of_scriptHash hrule hscriptHash, Run.bind_ok,
    redeemStage_eq_ok_iff, Run.result_ofExcept]
  constructor
  · rintro ⟨-, unlocked, stack, _, hunlocked, hlocked, htrue, -, stage,
      ⟨hpush, redeem, below, left, rfl, hleft, hleftTrue, hstage⟩, hend⟩
    obtain ⟨_, _, hstack, hheight, hsame⟩ :=
      (execute_scriptHash hlimits hhash hpubkey).mp ⟨stack, hlocked, htrue⟩
    cases hstack
    exact ⟨hpush, redeem, below, left, stage, hunlocked, hheight, hsame, hleft, hleftTrue, hstage,
      hend⟩
  · rintro ⟨hpush, redeem, below, left, stage, hunlocked, hheight, hsame, hleft, hleftTrue, hstage,
      hend⟩
    obtain ⟨stack, hlocked, htrue⟩ :=
      (execute_scriptHash hlimits hhash hpubkey).mpr ⟨redeem, below, rfl, hheight, hsame⟩
    exact ⟨fun _ => hpush, redeem :: below, stack, _, hunlocked, hlocked, htrue, rfl, stage,
      ⟨hpush, redeem, below, left, rfl, hleft, hleftTrue, hstage⟩, hend⟩

end ScriptHashes

end Spend

end CoinScript
