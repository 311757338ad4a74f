import CoinScript.Proofs.Relaxation
import CoinScript.Spend

/-! # Rules as soft forks

A spend that is accepted stays accepted when rules are dropped or limits raised. Two rules
do more than refuse: the rules for script hashes and for witnesses also change what is left
over at the end. The rules on leftovers therefore need those two to stay.
-/
namespace CoinScript.Spend

def under (spend : Spend) (limits : Limits) (flags : Flags) : Spend := { spend with limits, flags }

/-- Limits and rules that refuse less than those of a spend. A rule on what is left over
keeps the rules that decide what is left over. -/
structure Relaxes (spend : Spend) (limits : Limits) (flags : Flags) : Prop where
  wider : spend.limits.Within limits
  fewer : flags.Relaxes spend.flags
  cleanStack : flags.has .cleanStack = true →
    flags.has .p2sh = spend.flags.has .p2sh ∧ flags.has .witness = spend.flags.has .witness
  witness : flags.has .witness = true → flags.has .p2sh = spend.flags.has .p2sh

variable {spend : Spend} {limits : Limits} {flags : Flags}

theorem execute_preserved (h : spend.Relaxes limits flags) (version : SigVersion)
    (script : Script) (stack : Stack) :
    Preserved (spend.execute version script stack).result
      ((spend.under limits flags).execute version script stack).result := by
  apply Env.execute_preserved
  exact ⟨h.wider, h.fewer, rfl, rfl, rfl, rfl⟩

theorem checkItems_preserved (h : spend.Relaxes limits flags) (items : Witness) :
    Preserved (spend.checkItems items) ((spend.under limits flags).checkItems items) := by
  unfold checkItems under
  cases hfind : items.find? fun item => decide (limits.maxElementSize < item.length) with
  | none =>
    intro _ _
    rfl
  | some item =>
    -- The item is too long for the lower limit as well.
    have hlong : limits.maxElementSize < item.length := by
      simpa using List.find?_some hfind
    have htight : (items.find? fun item =>
        decide (spend.limits.maxElementSize < item.length)).isSome := by
      rw [List.find?_isSome]
      exact ⟨item, List.mem_of_find?_eq_some hfind, by
        simpa using Nat.lt_of_le_of_lt h.wider.element hlong⟩
    obtain ⟨first, hfirst⟩ := Option.isSome_iff_exists.mp htight
    rw [hfirst]
    exact .error _ _

theorem verifyProgram_preserved (h : spend.Relaxes limits flags) (version : Nat) (program : Bytes) :
    Preserved (spend.verifyProgram version program).result
      ((spend.under limits flags).verifyProgram version program).result := by
  unfold verifyProgram
  simp only [Run.result_ite]
  refine .branch (fun _ => ?_) fun _ => ?_
  · refine .runBind (.refl _) fun found => ?_
    refine .runBind (checkItems_preserved h found.2) fun _ => ?_
    exact .runBind (execute_preserved h .witnessV0 found.1 _) fun _ => .refl _
  · refine .runBind (.refl _) fun _ => ?_
    simp only [Run.result_ite]
    exact .guard h.fewer.has (.refl _)

/-- Without the rule for witnesses a witness program is not judged, and the stack stays as
it is; with the rule on both sides the stages are the same. -/
theorem witnessStage_ok (h : spend.Relaxes limits flags) {script : Script} {clean : Bool}
    {fault : Fault} {stack : Stack} {stage : Stage}
    (hs : (spend.witnessStage script clean fault stack).result = .ok stage) :
    ∃ stage', ((spend.under limits flags).witnessStage script clean fault stack).result =
        .ok stage' ∧
      (flags.has .witness = spend.flags.has .witness → stage' = stage) := by
  unfold witnessStage at hs ⊢
  cases hp : script.witnessProgram? with
  | none => exact ⟨stage, by simpa only [hp] using hs, fun _ => rfl⟩
  | some found =>
    simp only [hp] at hs ⊢
    by_cases hw : flags.has .witness = true
    · simp only [under, hw, h.fewer.has hw, ↓reduceIte, Run.result_ite] at hs ⊢
      refine ⟨stage, ?_, fun _ => rfl⟩
      refine Preserved.branch (fun _ => ?_) (fun _ => .refl _) stage hs
      exact .runBind (verifyProgram_preserved h _ _) fun _ => .refl _
    · simp only [under, hw, Bool.false_eq_true, ↓reduceIte, Run.result_pure]
      refine ⟨_, rfl, fun heq => ?_⟩
      rw [← heq] at hs
      simpa [hw] using hs

theorem redeemStage_ok (h : spend.Relaxes limits flags) {stack : Stack} {stage : Stage}
    (hs : (spend.redeemStage stack).result = .ok stage) :
    ∃ stage', ((spend.under limits flags).redeemStage stack).result = .ok stage' ∧
      (flags.has .witness = spend.flags.has .witness → stage' = stage) := by
  unfold redeemStage at hs ⊢
  by_cases hpush : spend.scriptSig.isPushOnly = true
  · rw [if_pos hpush] at hs
    rw [if_pos (show (spend.under limits flags).scriptSig.isPushOnly = true from hpush)]
    cases stack with
    | nil => simp at hs
    | cons redeem rest =>
      obtain ⟨left, hleft, hs⟩ := Run.bind_ok.mp hs
      by_cases htrue : left.topIsTrue = true
      · rw [if_pos htrue] at hs
        obtain ⟨stage', hstage', heq⟩ := witnessStage_ok h hs
        refine ⟨stage', Run.bind_ok.mpr ⟨left, execute_preserved h _ _ _ _ hleft, ?_⟩, heq⟩
        rw [if_pos htrue]
        exact hstage'
      · simp [htrue] at hs
  · simp [hpush] at hs

theorem checkEnd_ok (h : spend.Relaxes limits flags) {stage stage' : Stage}
    (hend : spend.checkEnd stage = .ok ())
    (heq : flags.has .p2sh = spend.flags.has .p2sh →
      flags.has .witness = spend.flags.has .witness → stage' = stage) :
    (spend.under limits flags).checkEnd stage' = .ok () := by
  have hpreserved : Preserved (spend.checkEnd stage)
      ((spend.under limits flags).checkEnd stage) := by
    refine .guard ?_ (.guard ?_ (.refl _))
    · exact fun ⟨hclean, hlength⟩ => ⟨h.fewer.has hclean, hlength⟩
    · exact fun ⟨hwitness, hunused⟩ => ⟨h.fewer.has hwitness, hunused⟩
  by_cases hclean : flags.has .cleanStack = true
  · obtain ⟨hp2sh, hwitness⟩ := h.cleanStack hclean
    rw [heq hp2sh hwitness]
    exact hpreserved _ hend
  · by_cases hwitness : flags.has .witness = true
    · rw [heq (h.witness hwitness) (by rw [hwitness, h.fewer.has hwitness])]
      exact hpreserved _ hend
    · simp [checkEnd, under, hclean, hwitness]

/-- The end of the judgement, where a script hash replaces the stage reached so far. -/
def ending (spend : Spend) (unlocked : Stack) (native : Stage) : Run Unit :=
  if spend.flags.has .p2sh && spend.scriptPubkey.isScriptHash then do
    let stage ← spend.redeemStage unlocked
    Run.ofExcept (spend.checkEnd stage)
  else Run.ofExcept (spend.checkEnd native)

theorem ending_ok (h : spend.Relaxes limits flags) {unlocked : Stack} {native native' : Stage}
    (hnative : flags.has .witness = spend.flags.has .witness → native' = native)
    (hok : (spend.ending unlocked native).result = .ok ()) :
    ((spend.under limits flags).ending unlocked native').result = .ok () := by
  unfold ending at hok ⊢
  by_cases hloose : (flags.has .p2sh && spend.scriptPubkey.isScriptHash) = true
  · have htight : (spend.flags.has .p2sh && spend.scriptPubkey.isScriptHash) = true := by
      simp only [Bool.and_eq_true] at hloose ⊢
      exact ⟨h.fewer.has hloose.1, hloose.2⟩
    rw [if_pos htight] at hok
    obtain ⟨stage, hstage, hend⟩ := Run.bind_ok.mp hok
    obtain ⟨stage', hstage', heq⟩ := redeemStage_ok h hstage
    refine (congrArg Run.result (if_pos hloose)).trans ?_
    exact Run.bind_ok.mpr ⟨stage', hstage', checkEnd_ok h hend fun _ => heq⟩
  · refine (congrArg Run.result (if_neg hloose)).trans ?_
    by_cases htight : (spend.flags.has .p2sh && spend.scriptPubkey.isScriptHash) = true
    · -- The rule for script hashes has been dropped, so no rule looks at the leftovers.
      rw [if_pos htight] at hok
      obtain ⟨stage, _, hend⟩ := Run.bind_ok.mp hok
      refine checkEnd_ok h hend fun hp2sh => ?_
      rw [hp2sh] at hloose
      exact absurd htight hloose
    · rw [if_neg htight] at hok
      exact checkEnd_ok h hok fun _ => hnative

theorem judge_eq (spend : Spend) : spend.judge =
    (if spend.flags.has .sigPushOnly && !spend.scriptSig.isPushOnly then Run.fail .notPushOnly
    else do
      let unlocked ← spend.execute .base spend.scriptSig []
      let stack ← spend.execute .base spend.scriptPubkey unlocked
      if stack.topIsTrue then do
        let native ← spend.witnessStage spend.scriptPubkey (spend.scriptSig = [])
          .malleatedWitness stack
        spend.ending unlocked native
      else Run.fail .falseResult) := by
  simp only [judge, ending, Run.ok_bind]

theorem judge_preserved (h : spend.Relaxes limits flags) :
    Preserved spend.judge.result (spend.under limits flags).judge.result := by
  rw [judge_eq, judge_eq, Run.result_ite, Run.result_ite]
  refine .guard ?_ ?_
  · simp only [Bool.and_eq_true]
    exact fun ⟨hrule, hpush⟩ => ⟨h.fewer.has hrule, hpush⟩
  · refine .runBind (execute_preserved h .base spend.scriptSig []) fun unlocked => ?_
    refine .runBind (execute_preserved h .base spend.scriptPubkey unlocked) fun stack => ?_
    rw [Run.result_ite, Run.result_ite]
    refine .branch (fun _ => ?_) fun _ => .refl _
    intro _ hok
    obtain ⟨native, hnative, hend⟩ := Run.bind_ok.mp hok
    obtain ⟨native', hnative', heq⟩ := witnessStage_ok h hnative
    exact Run.bind_ok.mpr ⟨native', hnative', ending_ok h heq hend⟩

theorem result_verify (spend : Spend) : spend.verify.result = spend.judge.result := by
  dsimp only [verify]
  split
  · rfl
  · rename_i hfault
    exact hfault.symm

theorem verify_preserved (h : spend.Relaxes limits flags) :
    Preserved spend.verify.result (spend.under limits flags).verify.result := by
  rw [result_verify, result_verify]
  exact judge_preserved h

end CoinScript.Spend

namespace CoinScript

/-- Dropping rules never refuses what was accepted, and never changes what a script leaves.
Reserved opcodes stay discouraged only together with the lock-time rules; in a spend, the rule
on leftover items needs the rules for script hashes and witnesses, and the latter needs the
former. -/
theorem accepted_under_fewer_rules (tight loose : Flags) (hsub : tight.includes loose = true)
    (hlocks : loose.has .discourageUpgradableNops = true →
      (tight.has .checkLockTimeVerify = true → loose.has .checkLockTimeVerify = true) ∧
      (tight.has .checkSequenceVerify = true → loose.has .checkSequenceVerify = true)) :
    (∀ (env : Env) (stack final : Stack),
      ({ env with flags := tight }.execute stack).result = .ok final →
      ({ env with flags := loose }.execute stack).result = .ok final) ∧
    (∀ spend : Spend,
      (loose.has .cleanStack = true → loose.has .p2sh = true ∧ loose.has .witness = true) →
      (loose.has .witness = true → loose.has .p2sh = true) →
      { spend with flags := tight }.verify.result = .ok () →
      { spend with flags := loose }.verify.result = .ok ()) := by
  have hrelaxes : loose.Relaxes tight :=
    ⟨hsub, fun hd => (hlocks hd).1, fun hd => (hlocks hd).2⟩
  constructor
  · intro env stack final hok
    refine Env.execute_preserved ?_ stack final hok
    exact ⟨.refl _, hrelaxes, rfl, rfl, rfl, rfl⟩
  · intro spend hclean hwitness hok
    -- A rule that is still there was there before, so both sides have it.
    have hkept {rule : Rule} (hrule : loose.has rule = true) : loose.has rule = tight.has rule := by
      rw [hrule, hrelaxes.has hrule]
    have hspend : Spend.Relaxes { spend with flags := tight } spend.limits loose :=
      ⟨.refl _, hrelaxes, fun hc => ⟨hkept (hclean hc).1, hkept (hclean hc).2⟩,
        fun hw => hkept (hwitness hw)⟩
    exact Spend.verify_preserved hspend () hok

/-- An output that can be spent from lock time one on, spent at that time. -/
def lockedSpend : Spend where
  scriptSig := [Opcode.one]
  scriptPubkey := [Opcode.one, Opcode.lockTimeVerify, 0x75]
  flags := Flags.ofRules [.p2sh, .witness, .cleanStack, .minimalData, .checkLockTimeVerify]
  context := some (TxContext.ofInput 1 1 [0] 0 fun _ _ _ => [])

theorem lockedSpend_accepted_under_fewer_rules :
    lockedSpend.verify.result = .ok () ∧
    { lockedSpend with flags := Flags.ofRules [.p2sh, .witness, .cleanStack] }.verify.result =
      .ok () := by
  have hok : lockedSpend.verify.result = .ok () := by decide +kernel
  refine ⟨hok, ?_⟩
  have hmore := accepted_under_fewer_rules lockedSpend.flags
    (Flags.ofRules [.p2sh, .witness, .cleanStack]) (by decide) (by decide)
  exact hmore.2 lockedSpend (by decide) (by decide) hok

/-- Raising limits, or failing disabled opcodes only where they are reached, never refuses what
was accepted, and never changes what a script leaves. -/
theorem accepted_under_wider_limits (tight loose : Limits) (hwithin : tight.Within loose) :
    (∀ (env : Env) (stack final : Stack),
      ({ env with limits := tight }.execute stack).result = .ok final →
      ({ env with limits := loose }.execute stack).result = .ok final) ∧
    (∀ spend : Spend,
      { spend with limits := tight }.verify.result = .ok () →
      { spend with limits := loose }.verify.result = .ok ()) := by
  have hsame (flags : Flags) : flags.Relaxes flags :=
    ⟨flags.includes_self, fun _ => id, fun _ => id⟩
  constructor
  · intro env stack final hok
    refine Env.execute_preserved ?_ stack final hok
    exact ⟨hwithin, hsame env.flags, rfl, rfl, rfl, rfl⟩
  · intro spend hok
    have hspend : Spend.Relaxes { spend with limits := tight } loose spend.flags :=
      ⟨hwithin, hsame spend.flags, fun _ => ⟨rfl, rfl⟩, fun _ => rfl⟩
    exact Spend.verify_preserved hspend () hok

/-- Limits that `lockedSpend` and its locking script on one item just keep. -/
def lockedLimits : Limits where
  maxOps := 2
  maxStackSize := 2
  maxScriptSize := 3
  maxElementSize := 0
  maxNumSize := 0
  maxKeysPerMultisig := 0

theorem lockedSpend_accepted_under_wider_limits :
    let env : Env :=
      { flags := lockedSpend.flags, context := lockedSpend.context,
        script := lockedSpend.scriptPubkey }
    let loose : Limits := { disabledPolicy := .executedOnly }
    lockedLimits.Within loose ∧
    ({ env with limits := lockedLimits }.execute [[1]]).result = .ok [[1]] ∧
    ({ env with limits := loose }.execute [[1]]).result = .ok [[1]] ∧
    { lockedSpend with limits := lockedLimits }.verify.result = .ok () ∧
    { lockedSpend with limits := loose }.verify.result = .ok () := by
  intro env loose
  have hwithin : lockedLimits.Within loose :=
    ⟨by decide, by decide, by decide, by decide, by decide, by decide, nofun⟩
  have hexecute : ({ env with limits := lockedLimits }.execute [[1]]).result = .ok [[1]] := by
    decide +kernel
  have hverify : { lockedSpend with limits := lockedLimits }.verify.result = .ok () := by
    decide +kernel
  have hmore := accepted_under_wider_limits lockedLimits loose hwithin
  exact ⟨hwithin, hexecute, hmore.1 env [[1]] [[1]] hexecute, hverify, hmore.2 lockedSpend hverify⟩

end CoinScript
