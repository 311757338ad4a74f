import CoinScript.Proofs.ExecutionFault
import CoinScript.Proofs.Judgement

/-! # Spends of script hashes

An output that names a script by its hash is spent by pushes that end in the script itself,
which then executes on what the pushes leave below it. The script is always there to be taken:
the output's own script fails on an empty stack, under whatever limits.
-/
namespace CoinScript

/-- Limits that refuse no more than either of two. -/
def Limits.sup (a b : Limits) : Limits where
  maxOps := max a.maxOps b.maxOps
  maxStackSize := max a.maxStackSize b.maxStackSize
  maxScriptSize := max a.maxScriptSize b.maxScriptSize
  maxElementSize := max a.maxElementSize b.maxElementSize
  maxNumSize := max a.maxNumSize b.maxNumSize
  maxKeysPerMultisig := max a.maxKeysPerMultisig b.maxKeysPerMultisig
  disabledPolicy := if a.disabledPolicy = .always then b.disabledPolicy else .executedOnly

theorem Limits.within_sup_left (a b : Limits) : a.Within (a.sup b) := by
  refine ⟨Nat.le_max_left _ _, Nat.le_max_left _ _, Nat.le_max_left _ _, Nat.le_max_left _ _,
    Nat.le_max_left _ _, Nat.le_max_left _ _, fun hpolicy => ?_⟩
  dsimp only [sup] at hpolicy
  split at hpolicy
  · next halways => exact halways
  · cases hpolicy

theorem Limits.within_sup_right (a b : Limits) : b.Within (a.sup b) := by
  refine ⟨Nat.le_max_right _ _, Nat.le_max_right _ _, Nat.le_max_right _ _, Nat.le_max_right _ _,
    Nat.le_max_right _ _, Nat.le_max_right _ _, fun hpolicy => ?_⟩
  dsimp only [sup] at hpolicy
  split at hpolicy
  · exact hpolicy
  · cases hpolicy

namespace Spend

section RedeemScript

variable {α : Type}

/-- An outcome that is not the want of a redeem script. -/
abbrev NotMissing (x : Except Fault α) : Prop := FailsWith (fun fault => fault ≠ .noRedeemScript) x

variable (spend : Spend)

theorem execute_notMissing (version : SigVersion) (script : Script) (stack : Stack) :
    NotMissing (spend.execute version script stack).result := by
  have hcodes := Env.execute_notFalse (spend.environment version script) stack
  refine hcodes.mono ?_
  rintro fault hcode rfl
  exact hcode rfl

theorem programScript_notMissing (program : Bytes) :
    NotMissing (spend.programScript program).result := by
  unfold programScript
  refine .runBranch ?_ (.runBranch (.runBranch ?_ (.error nofun)) (.error nofun))
  · split
    · exact .error nofun
    · exact .runBranch (.runBind (.ok _) fun _ _ => .ok _) (.error nofun)
  · exact .runBind (.ok _) fun _ _ => .ok _

theorem checkItems_notMissing (items : Witness) : NotMissing (spend.checkItems items) := by
  unfold checkItems
  split
  · exact .error nofun
  · exact .ok _

theorem verifyProgram_notMissing (version : Nat) (program : Bytes) :
    NotMissing (spend.verifyProgram version program).result := by
  unfold verifyProgram
  refine .runBranch ?_ ?_
  · refine .runBind (spend.programScript_notMissing program) fun found _ => ?_
    refine .runBind (spend.checkItems_notMissing found.2) fun _ _ => ?_
    refine .runBind (spend.execute_notMissing .witnessV0 found.1 _) fun stack _ => ?_
    exact .runBranch (.ok _) (.error nofun)
  · exact .runBind (.ok _) fun _ _ => .runBranch (.error nofun) (.ok _)

theorem witnessStage_notMissing (script : Script) (clean : Bool) {fault : Fault} (stack : Stack)
    (hfault : fault ≠ .noRedeemScript) :
    NotMissing (spend.witnessStage script clean fault stack).result := by
  unfold witnessStage
  split
  · next version program _ =>
    refine .runBranch (.runBranch ?_ (.error hfault)) (.ok _)
    exact .runBind (spend.verifyProgram_notMissing version program) fun _ _ => .ok _
  · exact .ok _

theorem redeemStage_notMissing (redeem : Script) (below : Stack) :
    NotMissing (spend.redeemStage (redeem :: below)).result := by
  refine .runBranch (.runBind (spend.execute_notMissing .base redeem below) fun stack _ => ?_)
    (.error nofun)
  exact .runBranch (spend.witnessStage_notMissing redeem _ stack nofun) (.error nofun)

theorem checkEnd_notMissing (stage : Stage) : NotMissing (spend.checkEnd stage) :=
  .branch (.error nofun) (.branch (.error nofun) (.ok _))

variable {spend}

theorem exists_redeem_of_execute (hscript : spend.scriptPubkey.isScriptHash = true)
    {unlocked stack : Stack}
    (hstack : (spend.execute .base spend.scriptPubkey unlocked).result = .ok stack) :
    ∃ redeem below, unlocked = redeem :: below := by
  obtain ⟨hash, hhash, hpubkey⟩ := Script.isScriptHash_iff.mp hscript
  let env : Env := spend.environment .base spend.scriptPubkey
  -- What limits below the default ones let through goes through under wider limits as well.
  have hrelaxed : env.Relaxed { env with limits := env.limits.sup {} } :=
    ⟨Limits.within_sup_left _ _, ⟨Flags.includes_self _, fun _ => id, fun _ => id⟩,
      rfl, rfl, rfl, rfl⟩
  have hwide := Env.execute_preserved hrelaxed unlocked stack hstack
  obtain ⟨redeem, below, hunlocked, -⟩ :=
    (Machine.execute_payToScriptHash (Limits.within_sup_right _ _) hhash hpubkey).mp hwide
  exact ⟨redeem, below, hunlocked⟩

theorem verify_notMissing (spend : Spend) : NotMissing spend.verify.result := by
  rw [result_verify, judge_eq]
  refine .runBranch (.error nofun) ?_
  refine .runBind (spend.execute_notMissing .base spend.scriptSig []) fun unlocked _ => ?_
  refine .runBind (spend.execute_notMissing .base spend.scriptPubkey unlocked) ?_
  intro stack hstack
  refine .runBranch (.runBind (spend.witnessStage_notMissing _ _ _ nofun) fun native _ => ?_)
    (.error nofun)
  unfold ending
  split
  · next hhash =>
    have hscript : spend.scriptPubkey.isScriptHash = true := (Bool.and_eq_true_iff.mp hhash).2
    obtain ⟨redeem, below, rfl⟩ := exists_redeem_of_execute hscript hstack
    exact .runBind (spend.redeemStage_notMissing redeem below) fun stage _ =>
      spend.checkEnd_notMissing stage
  · exact spend.checkEnd_notMissing native

end RedeemScript

end Spend

/-- Without the rules for witnesses and for leftover items, an output that names a script by its
hash is spent exactly by pushes that leave a script with that hash on top, if the script leaves a
true item when it executes on what is below. -/
theorem scriptHash_spent_iff (spend : Spend) (hash : Bytes) (hlimits : spend.limits = {})
    (hhash : hash.length = 20) (hpubkey : spend.scriptPubkey = 0xa9 :: 0x14 :: (hash ++ [0x87]))
    (hp2sh : spend.flags.has .p2sh = true) (hwitness : spend.flags.has .witness = false)
    (hclean : spend.flags.has .cleanStack = false) :
    (spend.verify.result = .ok () ↔ spend.scriptSig.isPushOnly = true ∧
      ∃ redeem below top rest,
        (spend.execute .base spend.scriptSig []).result = .ok (redeem :: below) ∧
        below.length + 2 ≤ 1000 ∧ spend.digests.hash160 redeem = hash ∧
        (spend.execute .base redeem below).result = .ok (top :: rest) ∧ top.isTrue = true) ∧
    spend.verify.result ≠ .error .noRedeemScript := by
  have hwithin : ({} : Limits).Within spend.limits := .of_eq hlimits
  have hheight : spend.limits.maxStackSize = 1000 := by rw [hlimits]
  have hend (stage : Spend.Stage) : spend.checkEnd stage = .ok () := by
    rw [Spend.checkEnd_eq_ok_iff, hclean, hwitness]
    exact ⟨nofun, nofun⟩
  refine ⟨?_, fun hmissing => spend.verify_notMissing _ hmissing rfl⟩
  rw [Spend.verify_scriptHash_eq_ok_iff hwithin hp2sh hhash hpubkey, hheight]
  refine and_congr_right fun _ => ?_
  constructor
  · rintro ⟨redeem, below, left, stage, hunlocked, hroom, hsame, hleft, htrue, -, -⟩
    cases left with
    | nil => cases htrue
    | cons top rest => exact ⟨redeem, below, top, rest, hunlocked, hroom, hsame, hleft, htrue⟩
  · rintro ⟨redeem, below, top, rest, hunlocked, hroom, hsame, hleft, htrue⟩
    exact ⟨redeem, below, top :: rest, ⟨top :: rest, false⟩, hunlocked, hroom, hsame, hleft, htrue,
      by rw [Spend.witnessStage_of_rule hwitness]; rfl, hend _⟩

/-- A script that is true on the byte seven, named by its hash, with that byte and the script. -/
def sevenSpend : Spend where
  scriptSig := [1, 7, 3, 1, 7, Opcode.equal]
  scriptPubkey := 0xa9 :: 0x14 :: (Digest.hash160 [1, 7, Opcode.equal] ++ [0x87])
  flags := Flags.mandatory

theorem sevenSpend_accepted :
    sevenSpend.verify.result = .ok () ∧ sevenSpend.verify.result ≠ .error .noRedeemScript := by
  have hspent := scriptHash_spent_iff sevenSpend (Digest.hash160 [1, 7, Opcode.equal]) rfl
    (Digests.standard.length_hash160 _) rfl (by decide) (by decide) (by decide)
  refine ⟨hspent.1.mpr ⟨by decide +kernel, ?_⟩, hspent.2⟩
  exact ⟨[1, 7, Opcode.equal], [[7]], [1], [], by decide +kernel, by decide, rfl,
    by decide +kernel, by decide⟩

end CoinScript
