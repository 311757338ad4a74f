import CoinScript.Proofs.ExactArithmetic
import CoinScript.Proofs.Judgement

/-! # Truth and zero

The truth of an item is told by its bytes, and whether it is zero by the number that it denotes. The
two agree on every string: false are exactly the forms of zero, of whatever length and with either
sign. So where an item is accepted as a number, the opcodes that compare it with zero give the same
verdict as everything else that asks whether it is true.
-/
namespace CoinScript

namespace Number

theorem magnitude_eq_zero_iff (s : Bytes) : magnitude s = 0 ↔ s.isTrue = false := by
  induction s with
  | nil => exact iff_of_true rfl rfl
  | cons b rest ih =>
    have hb := b.toNat_lt
    have hzero : b = 0 ↔ b.toNat = 0 := UInt8.toNat_inj.symm
    cases rest with
    | nil =>
      have hsign : b = 0x80 ↔ b.toNat = 128 := UInt8.toNat_inj.symm
      simp only [magnitude, Bytes.isTrue, ne_eq, Bool.and_eq_false_iff, decide_eq_false_iff_not,
        not_not, hzero, hsign]
      omega
    | cons c rest =>
      simp only [magnitude_cons, Bytes.isTrue, ne_eq, Bool.or_eq_false_iff, decide_eq_false_iff_not,
        not_not, hzero, ← ih]
      omega

theorem isTrue_iff_decode_ne_zero (s : Bytes) : s.isTrue = true ↔ decode s ≠ 0 := by
  rw [ne_eq, ← Int.natAbs_eq_zero, natAbs_decode, magnitude_eq_zero_iff, Bool.not_eq_false]

theorem isTrue_encode_iff (n : Int) : (encode n).isTrue = true ↔ n ≠ 0 := by
  rw [isTrue_iff_decode_ne_zero, decode_encode]

theorem isTrue_of_read {format : Format} {item : Bytes} {n : Int} (h : read format item = .ok n) :
    item.isTrue = decide (n ≠ 0) := by
  have hvalue : decode item = n := by
    unfold read at h
    split_ifs at h
    exact Except.ok.inj h
  rw [Bool.eq_iff_iff, isTrue_iff_decode_ne_zero, hvalue, decide_eq_true_iff]

end Number

namespace Machine

variable {env : Env} {item : Bytes} {verdict : Bool}

/-- What an opcode does in a branch that is taken, when `item` is on top of the stack. -/
def Does (env : Env) (item : Bytes) (opcode : UInt8) (effect : Machine → Stack → Run Machine) :
    Prop :=
  ∀ (m : Machine) (here : Located) (below : Stack), m.executing = true → here.opcode = opcode →
    m.stack = item :: below → perform env m here = effect m below

/-- The opcodes that compare a number with zero push the verdict, or its opposite. -/
structure ZeroTests (env : Env) (item : Bytes) (verdict : Bool) : Prop where
  zeroNotEqual : Does env item 0x92 fun m below =>
    pure { m with stack := below.pushBool verdict }
  not : Does env item 0x91 fun m below =>
    pure { m with stack := below.pushBool !verdict }

/-- The opcodes that ask for the truth of an item go by the verdict. A conditional may refuse the
item for its form before that. -/
structure TruthTests (env : Env) (item : Bytes) (verdict : Bool) : Prop where
  openIf : Does env item 0x63 fun m below => do
    Run.ofExcept (checkCondition env item)
    return { m with stack := below, branches := m.branches.enter verdict }
  openNotIf : Does env item 0x64 fun m below => do
    Run.ofExcept (checkCondition env item)
    return { m with stack := below, branches := m.branches.enter !verdict }
  verify : Does env item 0x69 fun m below =>
    if verdict then pure { m with stack := below } else Run.fail .verifyFailed
  ifDup : Does env item 0x73 fun m below =>
    pure { m with stack := if verdict then item :: item :: below else item :: below }

section Opcodes

variable {opcode : UInt8} {effect : Machine → Stack → Run Machine}

theorem does_of_act (hpush : Opcode.isPush opcode = false)
    (h : ∀ (m : Machine) (here : Located) (below : Stack), m.executing = true →
      here.instruction.opcode = opcode → m.stack = item :: below →
      act env m here = effect m below) : Does env item opcode effect := by
  intro m here below hexecuting hopcode hstack
  have hnoPush : here.instruction.isPush = false := by
    rw [← hopcode] at hpush
    exact hpush
  simp only [perform, hexecuting, hnoPush, Bool.and_false, Bool.true_or, Bool.false_eq_true,
    ↓reduceIte]
  exact h m here below hexecuting hopcode hstack

theorem does_unaryTest {op : UnaryTest} {n : Int} (hpush : Opcode.isPush opcode = false)
    (hop : Operation.ofOpcode opcode = .number (.unaryTest op))
    (hread : Number.read env.numberFormat item = .ok n) (hverdict : op.eval n = verdict) :
    Does env item opcode fun m below => pure { m with stack := below.pushBool verdict } := by
  apply does_of_act hpush
  rintro m here below - rfl hstack
  have hrun : NumberOp.run env.numberFormat (.unaryTest op) (item :: below) =
      .ok (below.pushBool verdict) := by
    rw [← hverdict]
    exact NumberOp.run_of_effect (.unaryTest hread) below
  rw [act_number hop, onStack, hstack, hrun]
  rfl

theorem does_stack {op : StackOp} {outcome : Stack → Except Fault Stack}
    (hpush : Opcode.isPush opcode = false) (hop : Operation.ofOpcode opcode = .stack op)
    (hrun : ∀ below, op.run env.digests (item :: below) = outcome below) :
    Does env item opcode fun m below =>
      Run.ofExcept (do return { m with stack := ← outcome below }) := by
  apply does_of_act hpush
  rintro m here below - rfl hstack
  simp only [act, hop, onStack, hstack, hrun]

theorem does_openIf {negated : Bool} (hpush : Opcode.isPush opcode = false)
    (hop : Operation.ofOpcode opcode = .openIf negated) :
    Does env item opcode fun m below => do
      Run.ofExcept (checkCondition env item)
      return { m with stack := below, branches := m.branches.enter (item.isTrue != negated) } := by
  apply does_of_act hpush
  rintro m here below hexecuting rfl hstack
  simp only [act, hop, openIf, hexecuting, ↓reduceIte, hstack]
  cases checkCondition env item <;> rfl

theorem zeroTests_of_read {n : Int} (h : Number.read env.numberFormat item = .ok n) :
    ZeroTests env item (n ≠ 0) where
  zeroNotEqual := does_unaryTest rfl rfl h rfl
  not := does_unaryTest rfl rfl h (by simp [UnaryTest.eval])

theorem truthTests_isTrue (env : Env) (item : Bytes) : TruthTests env item item.isTrue where
  openIf := by
    rw [← Bool.bne_false item.isTrue]
    exact does_openIf rfl rfl
  openNotIf := by
    rw [← Bool.bne_true item.isTrue]
    exact does_openIf rfl rfl
  verify := by
    intro m here below hexecuting hopcode hstack
    rw [does_stack rfl rfl (StackOp.run_verify item) m here below hexecuting hopcode hstack]
    cases item.isTrue <;> rfl
  ifDup := by
    intro m here below hexecuting hopcode hstack
    rw [does_stack rfl rfl (StackOp.run_ifDup item) m here below hexecuting hopcode hstack]
    cases item.isTrue <;> rfl

end Opcodes

end Machine

namespace Spend

/-- Whether a spend goes on after a script that has left `item` on top is up to the verdict: after
the script of the output, after the one that it names by its hash, and after that of a witness
program, which may leave nothing else. -/
structure EndTests (item : Bytes) (verdict : Bool) : Prop where
  locking : ∀ (spend : Spend) (unlocked below : Stack),
    (spend.flags.has .sigPushOnly = true → spend.scriptSig.isPushOnly = true) →
    (spend.execute .base spend.scriptSig []).result = .ok unlocked →
    (spend.execute .base spend.scriptPubkey unlocked).result = .ok (item :: below) →
    spend.verify.result =
      if verdict then
        (spend.witnessStage spend.scriptPubkey (spend.scriptSig = []) .malleatedWitness
          (item :: below) >>= spend.ending unlocked).result
      else .error .falseResult
  redeeming : ∀ (spend : Spend) (redeem : Script) (stack below : Stack),
    spend.scriptSig.isPushOnly = true →
    (spend.execute .base redeem stack).result = .ok (item :: below) →
    (spend.redeemStage (redeem :: stack)).result =
      if verdict then
        (spend.witnessStage redeem (spend.scriptSig = (Instruction.ofData redeem).encode)
          .malleatedRedeem (item :: below)).result
      else .error .falseRedeemResult
  program : ∀ (spend : Spend) (program : Bytes) (script : Script) (items : Witness),
    (spend.programScript program).result = .ok (script, items) →
    spend.checkItems items = .ok () →
    (spend.execute .witnessV0 script (.ofItems items)).result = .ok [item] →
    (spend.verifyProgram 0 program).result =
      if verdict then .ok () else .error .falseWitnessResult

theorem endTests_isTrue (item : Bytes) : EndTests item item.isTrue where
  locking spend unlocked below hpush hunlocked hlocked := by
    have hrule : ¬(spend.flags.has .sigPushOnly && !spend.scriptSig.isPushOnly) = true := by
      simpa using hpush
    rw [result_verify, judge_eq, if_neg hrule, Run.result_bind_of_ok hunlocked,
      Run.result_bind_of_ok hlocked]
    exact Run.result_ite _ _ _
  redeeming spend redeem stack below hpush hexecute := by
    rw [redeemStage, if_pos hpush, Run.result_bind_of_ok hexecute]
    exact Run.result_ite _ _ _
  program spend program script items hscript hitems hexecute := by
    rw [verifyProgram, if_pos rfl, Run.result_bind_of_ok hscript,
      Run.result_bind_of_ok (a := ()) hitems, Run.result_bind_of_ok hexecute]
    simp [Stack.topIsTrue]

end Spend

/-- An item is true exactly if the number that it denotes is not zero. So if it is accepted as an
operand, the comparisons with zero, the opcodes that ask for its truth and the end of a spend all go
by one verdict, whether the operand is other than zero; and what is written for a number is true
exactly if the number is not zero. -/
theorem truth_is_nonzero :
    (∀ item : Bytes, ∃ n, Number.read ⟨item.length, false⟩ item = .ok n ∧
      (item.isTrue = true ↔ n ≠ 0)) ∧
    (∀ (env : Env) (item : Bytes) (n : Int), Number.read env.numberFormat item = .ok n →
      Machine.ZeroTests env item (n ≠ 0) ∧ Machine.TruthTests env item (n ≠ 0) ∧
        Spend.EndTests item (n ≠ 0)) ∧
    ∀ n : Int, (Number.encode n).isTrue = true ↔ n ≠ 0 := by
  refine ⟨fun item => ⟨Number.decode item, by simp [Number.read], ?_⟩, ?_, ?_⟩
  · exact Number.isTrue_iff_decode_ne_zero item
  · intro env item n hread
    have hzero := Machine.zeroTests_of_read hread
    rw [← Number.isTrue_of_read hread] at hzero ⊢
    exact ⟨hzero, Machine.truthTests_isTrue env item, Spend.endTests_isTrue item⟩
  · exact Number.isTrue_encode_iff

/-- The negative zero of two bytes: it is turned into one, is not verified, and does not spend. -/
theorem truth_is_nonzero_negative_zero :
    let env : Env := { flags := .empty, script := [] }
    let m := Machine.start env [[0x00, 0x80], [9]]
    let spend : Spend := { scriptSig := [0x02, 0x00, 0x80], scriptPubkey := [], flags := .empty }
    Number.read env.numberFormat [0x00, 0x80] = .ok 0 ∧
    Machine.perform env m ⟨.ofOpcode 0x91, []⟩ = pure { m with stack := [[1], [9]] } ∧
    Machine.perform env m ⟨.ofOpcode 0x69, []⟩ = Run.fail .verifyFailed ∧
    spend.verify.result = .error .falseResult ∧
    (Number.encode (-128)).isTrue = true := by
  intro env m spend
  obtain ⟨-, htests, hencode⟩ := truth_is_nonzero
  have hread : Number.read env.numberFormat [0x00, 0x80] = .ok 0 := by decide +kernel
  obtain ⟨hzero, htruth, hend⟩ := htests env [0x00, 0x80] 0 hread
  have hunlocked : (spend.execute .base spend.scriptSig []).result = .ok [[0x00, 0x80]] := by
    decide +kernel
  refine ⟨hread, hzero.not m _ [[9]] rfl rfl rfl, htruth.verify m _ [[9]] rfl rfl rfl, ?_, ?_⟩
  · exact hend.locking spend [[0x00, 0x80]] [] (by decide) hunlocked (by decide +kernel)
  · exact (hencode (-128)).mpr (by decide)

end CoinScript
