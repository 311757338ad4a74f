import CoinScript.Proofs.Judgement
import CoinScript.Proofs.RuleUse

/-! # Spends of witness programs

A witness program decides alone whether it is spent, be it the output's script or a script that
the output names by its hash. The signature script is then fixed byte by byte, one item is left
whatever the scripts leave, and so the rule on leftover items has no say.
-/
namespace CoinScript

theorem Stack.length_truncate_one {s : Stack} (h : s.topIsTrue = true) :
    (s.truncate 1).length = 1 := by
  cases s with
  | nil => cases h
  | cons top rest => simp [truncate]

namespace Spend

variable {spend : Spend} {version : Nat} {program : Bytes}

section LeftoverRule

variable {flags : Flags}

/-- Rules that differ from those of a spend at most in the one on leftover items. -/
def SameButCleanStack (spend : Spend) (flags : Flags) : Prop :=
  ∀ rule, rule ≠ .cleanStack → flags.has rule = spend.flags.has rule

variable (h : spend.SameButCleanStack flags)

include h

theorem execute_under (ver : SigVersion) (script : Script) (stack : Stack) :
    (spend.under spend.limits flags).execute ver script stack =
      spend.execute ver script stack := by
  have halike : flags.Alike (spend.environment ver script).flags := by
    intro rule hrule
    apply h
    rintro rfl
    cases hrule
  exact Env.execute_under halike stack

theorem verifyProgram_under :
    (spend.under spend.limits flags).verifyProgram version program =
      spend.verifyProgram version program := by
  unfold verifyProgram
  simp only [execute_under h]
  have hrule := h .discourageUpgradableWitnessProgram nofun
  simp only [under, hrule]
  rfl

theorem witnessStage_under (script : Script) (clean : Bool) (fault : Fault) (stack : Stack) :
    (spend.under spend.limits flags).witnessStage script clean fault stack =
      spend.witnessStage script clean fault stack := by
  have hrule := h .witness nofun
  simp only [witnessStage, verifyProgram_under h]
  simp only [under, hrule]

theorem redeemStage_under (stack : Stack) :
    (spend.under spend.limits flags).redeemStage stack = spend.redeemStage stack := by
  simp only [redeemStage, execute_under h, witnessStage_under h]
  rfl

theorem checkEnd_under {stage : Stage} (hone : stage.stack.length = 1) :
    (spend.under spend.limits flags).checkEnd stage = spend.checkEnd stage := by
  have hrule := h .witness nofun
  simp only [checkEnd, under, hrule, hone, ne_eq, not_true_eq_false, and_false, ↓reduceIte]

/-- Two sets of rules judge alike up to the end, so what is left to compare are the two ends. -/
theorem verify_under
    (hending : ∀ unlocked stack native,
      (spend.execute .base spend.scriptSig []).result = .ok unlocked → stack.topIsTrue = true →
      (spend.witnessStage spend.scriptPubkey (spend.scriptSig = []) .malleatedWitness
        stack).result = .ok native →
      (spend.under spend.limits flags).ending unlocked native = spend.ending unlocked native) :
    (spend.under spend.limits flags).verify = spend.verify := by
  have hpush := h .sigPushOnly nofun
  have hjudge : (spend.under spend.limits flags).judge = spend.judge := by
    rw [judge_eq, judge_eq]
    simp only [execute_under h, witnessStage_under h]
    simp only [under, hpush]
    congr 1
    refine Run.bind_congr_result fun unlocked hunlocked => ?_
    refine bind_congr fun stack => ?_
    by_cases htrue : stack.topIsTrue = true
    · rw [if_pos htrue, if_pos htrue]
      exact Run.bind_congr_result fun native hnative =>
        hending unlocked stack native hunlocked htrue hnative
    · rw [if_neg htrue, if_neg htrue]
  unfold verify
  rw [hjudge]
  rfl

end LeftoverRule

theorem checkEnd_of_program {stack : Stack} (htrue : stack.topIsTrue = true) :
    spend.checkEnd ⟨stack.truncate 1, true⟩ = .ok () :=
  checkEnd_eq_ok_iff.mpr ⟨fun _ => Stack.length_truncate_one htrue, nofun⟩

section Native

theorem verify_program_eq_ok_iff (hlimits : ({} : Limits).Within spend.limits)
    (hrule : spend.flags.has .witness = true)
    (hprogram : spend.scriptPubkey.witnessProgram? = some (version, program)) :
    spend.verify.result = .ok () ↔ spend.scriptSig = [] ∧ program.isTrue = true ∧
      (spend.verifyProgram version program).result = .ok () := by
  have hheight : 1000 ≤ spend.limits.maxStackSize := hlimits.stack
  have hunlock (hsig : spend.scriptSig = []) (unlocked : Stack) :
      (spend.execute .base spend.scriptSig []).result = .ok unlocked ↔ unlocked = [] :=
    Machine.execute_empty hsig
  have hlock (unlocked stack : Stack) :
      (spend.execute .base spend.scriptPubkey unlocked).result = .ok stack ↔
        unlocked.length + 2 ≤ spend.limits.maxStackSize ∧
          stack = program :: Number.encode version :: unlocked :=
    Machine.execute_witnessProgram hlimits hprogram
  have hother := Script.isScriptHash_of_witnessProgram hprogram
  rw [verify_eq_ok_iff]
  simp only [witnessStage_program_eq_ok_iff hrule hprogram, ending_of_other hother, hlock,
    decide_eq_true_eq, Run.result_ofExcept]
  constructor
  · rintro ⟨-, unlocked, _, native, -, ⟨-, rfl⟩, htrue, ⟨hsig, hverify, -⟩, -⟩
    exact ⟨hsig, htrue, hverify⟩
  · rintro ⟨hsig, htrue, hverify⟩
    have hpush : spend.scriptSig.isPushOnly = true := by
      rw [hsig]
      exact Script.isPushOnly_nil
    have hroom : ([] : Stack).length + 2 ≤ spend.limits.maxStackSize :=
      Nat.le_trans (by decide) hheight
    exact ⟨fun _ => hpush, [], _, _, (hunlock hsig []).mpr rfl, ⟨hroom, rfl⟩, htrue,
      ⟨hsig, hverify, rfl⟩, checkEnd_of_program htrue⟩

theorem verify_program_under (hrule : spend.flags.has .witness = true)
    (hprogram : spend.scriptPubkey.witnessProgram? = some (version, program)) {flags : Flags}
    (h : spend.SameButCleanStack flags) :
    (spend.under spend.limits flags).verify = spend.verify := by
  have hother := Script.isScriptHash_of_witnessProgram hprogram
  refine verify_under h fun unlocked stack native _ htrue hnative => ?_
  obtain ⟨-, -, rfl⟩ := (witnessStage_program_eq_ok_iff hrule hprogram).mp hnative
  have hunder : (spend.under spend.limits flags).scriptPubkey.isScriptHash = false := hother
  rw [ending_of_other hunder, ending_of_other hother,
    checkEnd_under h (Stack.length_truncate_one htrue)]

end Native

section Wrapped

variable {redeem : Script} {below : Stack}

theorem verify_wrapped_eq_ok_iff (hlimits : ({} : Limits).Within spend.limits)
    (hp2sh : spend.flags.has .p2sh = true) (hrule : spend.flags.has .witness = true)
    (hprogram : redeem.witnessProgram? = some (version, program))
    (hpubkey : spend.scriptPubkey = Script.payToScriptHash (spend.digests.hash160 redeem))
    (hunlocked : (spend.execute .base spend.scriptSig []).result = .ok (redeem :: below)) :
    spend.verify.result = .ok () ↔ spend.scriptSig = (Instruction.ofData redeem).encode ∧
      program.isTrue = true ∧ (spend.verifyProgram version program).result = .ok () := by
  have hheight : 1000 ≤ spend.limits.maxStackSize := hlimits.stack
  have hlock (below left : Stack) :
      (spend.execute .base redeem below).result = .ok left ↔
        below.length + 2 ≤ spend.limits.maxStackSize ∧
          left = program :: Number.encode version :: below :=
    Machine.execute_witnessProgram hlimits hprogram
  rw [verify_scriptHash_eq_ok_iff hlimits hp2sh (spend.digests.length_hash160 redeem) hpubkey]
  constructor
  · rintro ⟨-, redeem', below', left, stage, hsame, -, -, hleft, htrue, hstage, -⟩
    cases hunlocked.symm.trans hsame
    obtain ⟨-, rfl⟩ := (hlock below left).mp hleft
    obtain ⟨hsig, hverify, -⟩ := (witnessStage_program_eq_ok_iff hrule hprogram).mp hstage
    exact ⟨of_decide_eq_true hsig, htrue, hverify⟩
  · rintro ⟨hsig, htrue, hverify⟩
    obtain ⟨first, hbytes, hlong, hshort, -⟩ := Script.witnessProgram?_eq_some hprogram
    have hlength : redeem.length = program.length + 2 := by
      rw [hbytes, Instruction.encode_ofData_of_direct (by omega), List.length_cons,
        List.length_cons]
    -- One push leaves one item, so there is room for the two that the program adds.
    have hpushed (unlocked : Stack) :
        (spend.execute .base spend.scriptSig []).result = .ok unlocked ↔
          ([] : Stack).length + 1 ≤ spend.limits.maxStackSize ∧ unlocked = [redeem] :=
      Machine.execute_push hlimits hsig (by omega) (by omega)
    cases ((hpushed _).mp hunlocked).2
    have hpush : spend.scriptSig.isPushOnly = true := by
      rw [hsig]
      exact Script.isPushOnly_push (by omega)
    have hroom : ([] : Stack).length + 2 ≤ spend.limits.maxStackSize :=
      Nat.le_trans (by decide) hheight
    exact ⟨hpush, redeem, [], _, _, hunlocked, hroom, rfl, (hlock [] _).mpr ⟨hroom, rfl⟩, htrue,
      (witnessStage_program_eq_ok_iff hrule hprogram).mpr ⟨decide_eq_true hsig, hverify, rfl⟩,
      checkEnd_of_program htrue⟩

theorem verify_wrapped_under (hp2sh : spend.flags.has .p2sh = true)
    (hrule : spend.flags.has .witness = true)
    (hprogram : redeem.witnessProgram? = some (version, program))
    (hpubkey : spend.scriptPubkey = Script.payToScriptHash (spend.digests.hash160 redeem))
    (hunlocked : (spend.execute .base spend.scriptSig []).result = .ok (redeem :: below))
    {flags : Flags} (h : spend.SameButCleanStack flags) :
    (spend.under spend.limits flags).verify = spend.verify := by
  have hhash : spend.scriptPubkey.isScriptHash = true :=
    Script.isScriptHash_iff.mpr ⟨_, spend.digests.length_hash160 redeem, hpubkey⟩
  have hflags : (spend.under spend.limits flags).flags.has .p2sh = true :=
    (h .p2sh nofun).trans hp2sh
  refine verify_under h fun unlocked stack native hsame _ _ => ?_
  cases hunlocked.symm.trans hsame
  refine (ending_of_scriptHash hflags hhash _ native).trans ?_
  rw [ending_of_scriptHash hp2sh hhash, redeemStage_under h]
  refine Run.bind_congr_result fun stage hstage => ?_
  obtain ⟨-, redeem', below', left, hstack, -, htrue, hstage⟩ := redeemStage_eq_ok_iff.mp hstage
  cases hstack
  obtain ⟨-, -, rfl⟩ := (witnessStage_program_eq_ok_iff hrule hprogram).mp hstage
  rw [checkEnd_under h (Stack.length_truncate_one htrue)]

end Wrapped

end Spend

/-- A witness program is spent exactly when the program is true as an item, the program is
satisfied and the signature script is the only one there can be: empty for a program in the
output, and one push of the script where the output names it by its hash. The rule on leftover
items makes no difference. -/
theorem program_spent_iff (spend : Spend) (version : Nat) (program : Bytes)
    (hlimits : spend.limits = {}) (hp2sh : spend.flags.has .p2sh = true)
    (hwitness : spend.flags.has .witness = true) :
    (spend.scriptPubkey.witnessProgram? = some (version, program) →
      (spend.verify.result = .ok () ↔ spend.scriptSig = [] ∧ program.isTrue = true ∧
        (spend.verifyProgram version program).result = .ok ()) ∧
      ∀ flags : Flags, (∀ rule, rule ≠ .cleanStack → flags.has rule = spend.flags.has rule) →
        { spend with flags }.verify = spend.verify) ∧
    (∀ (redeem : Script) (below : Stack), redeem.witnessProgram? = some (version, program) →
      spend.scriptPubkey = 0xa9 :: 0x14 :: (spend.digests.hash160 redeem ++ [0x87]) →
      (spend.execute .base spend.scriptSig []).result = .ok (redeem :: below) →
      (spend.verify.result = .ok () ↔ spend.scriptSig = (Instruction.ofData redeem).encode ∧
        program.isTrue = true ∧ (spend.verifyProgram version program).result = .ok ()) ∧
      ∀ flags : Flags, (∀ rule, rule ≠ .cleanStack → flags.has rule = spend.flags.has rule) →
        { spend with flags }.verify = spend.verify) := by
  have hwithin : ({} : Limits).Within spend.limits := .of_eq hlimits
  constructor
  · intro hprogram
    constructor
    · exact Spend.verify_program_eq_ok_iff hwithin hwitness hprogram
    · intro flags hsame
      exact Spend.verify_program_under hwitness hprogram hsame
  · intro redeem below hprogram hpubkey hunlocked
    constructor
    · exact Spend.verify_wrapped_eq_ok_iff hwithin hp2sh hwitness hprogram hpubkey hunlocked
    · intro flags hsame
      exact Spend.verify_wrapped_under hp2sh hwitness hprogram hpubkey hunlocked hsame

def witnessRules : Flags := Flags.ofRules [.p2sh, .witness]

def nativeSpend (script : Script) (witness : Witness) : Spend where
  scriptSig := []
  witness
  scriptPubkey := script
  flags := witnessRules

def wrappedSpend (script : Script) (witness : Witness) : Spend where
  scriptSig := (Instruction.ofData script).encode
  witness
  scriptPubkey := 0xa9 :: 0x14 :: (Digest.hash160 script ++ [0x87])
  flags := witnessRules

/-- Both ways to spend a program: that of a script which compares an item with the byte seven, with
the byte and the script as witness, and that of a version which nothing is known about. -/
theorem program_spent_both_ways :
    let seven : Script := [1, 7, Opcode.equal]
    let sevenProgram : Script := 0x00 :: 0x20 :: Digest.sha256 seven
    let laterProgram : Script := [Opcode.one, 2, 1, 1]
    let clean := Flags.ofRules [.p2sh, .witness, .cleanStack]
    ∀ spend ∈ [nativeSpend sevenProgram [[7], seven], wrappedSpend sevenProgram [[7], seven],
        nativeSpend laterProgram [], wrappedSpend laterProgram []],
      spend.verify.result = .ok () ∧ { spend with flags := clean }.verify.result = .ok () := by
  intro seven sevenProgram laterProgram clean
  have hp2sh : witnessRules.has .p2sh = true := by decide
  have hwitness : witnessRules.has .witness = true := by decide
  have hclean : ∀ rule, rule ≠ .cleanStack → clean.has rule = witnessRules.has rule := by
    intro rule hrule
    cases rule with
    | cleanStack => exact absurd rfl hrule
    | _ => decide
  have hnative (script : Script) (witness : Witness) (version : Nat) (program : Bytes)
      (hprogram : script.witnessProgram? = some (version, program)) (htrue : program.isTrue = true)
      (hverify : ((nativeSpend script witness).verifyProgram version program).result = .ok ()) :
      (nativeSpend script witness).verify.result = .ok () ∧
        { nativeSpend script witness with flags := clean }.verify.result = .ok () := by
    obtain ⟨hspent, hsame⟩ := (program_spent_iff (nativeSpend script witness) version program rfl
      hp2sh hwitness).1 hprogram
    have haccepted := hspent.mpr ⟨rfl, htrue, hverify⟩
    exact ⟨haccepted, by rw [hsame clean hclean, haccepted]⟩
  have hwrapped (script : Script) (witness : Witness) (version : Nat) (program : Bytes)
      (hprogram : script.witnessProgram? = some (version, program)) (htrue : program.isTrue = true)
      (hunlocked : ((wrappedSpend script witness).execute .base
        (wrappedSpend script witness).scriptSig []).result = .ok [script])
      (hverify : ((wrappedSpend script witness).verifyProgram version program).result = .ok ()) :
      (wrappedSpend script witness).verify.result = .ok () ∧
        { wrappedSpend script witness with flags := clean }.verify.result = .ok () := by
    obtain ⟨hspent, hsame⟩ := (program_spent_iff (wrappedSpend script witness) version program rfl
      hp2sh hwitness).2 script [] hprogram rfl hunlocked
    have haccepted := hspent.mpr ⟨rfl, htrue, hverify⟩
    exact ⟨haccepted, by rw [hsame clean hclean, haccepted]⟩
  have hseven := hnative sevenProgram [[7], seven] 0 (Digest.sha256 seven) (by decide +kernel)
    (by decide +kernel) (by decide +kernel)
  have hsevenWrapped := hwrapped sevenProgram [[7], seven] 0 (Digest.sha256 seven)
    (by decide +kernel) (by decide +kernel) (by decide +kernel) (by decide +kernel)
  have hlater := hnative laterProgram [] 1 [1, 1] (by decide) (by decide) (by decide +kernel)
  have hlaterWrapped := hwrapped laterProgram [] 1 [1, 1] (by decide) (by decide)
    (by decide +kernel) (by decide +kernel)
  simp only [List.forall_mem_cons]
  exact ⟨hseven, hsevenWrapped, hlater, hlaterWrapped, nofun⟩

end CoinScript
