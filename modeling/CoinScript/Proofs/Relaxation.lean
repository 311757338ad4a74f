import CoinScript.Proofs.Outcome
import CoinScript.Machine.Step

/-! # Fewer rules and wider limits

Rules and limits only ever refuse: an execution that succeeds takes the same course when
rules are dropped or limits are raised. The one exception is a lock-time rule, whose opcode
is a reserved one without it; while reserved opcodes are discouraged, such a rule has to
stay.
-/
namespace CoinScript

theorem Flags.has_of_includes {f g : Flags} (h : f.includes g = true) {rule : Rule}
    (hg : g.has rule = true) : f.has rule = true := by
  simp only [has, includes, beq_iff_eq] at h hg ⊢
  rw [← hg, ← UInt32.and_assoc, h]

theorem Flags.includes_self (f : Flags) : f.includes f = true := by simp [includes]

/-- `loose` has no rule that `tight` lacks, and keeps the lock-time rules of `tight` while
reserved opcodes are discouraged. -/
structure Flags.Relaxes (loose tight : Flags) : Prop where
  included : tight.includes loose = true
  lockTime : loose.has .discourageUpgradableNops = true →
    tight.has .checkLockTimeVerify = true → loose.has .checkLockTimeVerify = true
  sequence : loose.has .discourageUpgradableNops = true →
    tight.has .checkSequenceVerify = true → loose.has .checkSequenceVerify = true

theorem Flags.Relaxes.has {loose tight : Flags} (h : loose.Relaxes tight) {rule : Rule}
    (hr : loose.has rule = true) : tight.has rule = true := has_of_includes h.included hr

/-- Every limit of `tight` is at most that of `loose`, and disabled opcodes fail under
`loose` only where they fail under `tight`. -/
structure Limits.Within (tight loose : Limits) : Prop where
  ops : tight.maxOps ≤ loose.maxOps
  stack : tight.maxStackSize ≤ loose.maxStackSize
  script : tight.maxScriptSize ≤ loose.maxScriptSize
  element : tight.maxElementSize ≤ loose.maxElementSize
  num : tight.maxNumSize ≤ loose.maxNumSize
  keys : tight.maxKeysPerMultisig ≤ loose.maxKeysPerMultisig
  policy : loose.disabledPolicy = .always → tight.disabledPolicy = .always

theorem Limits.Within.refl (limits : Limits) : limits.Within limits :=
  ⟨Nat.le_refl _, Nat.le_refl _, Nat.le_refl _, Nat.le_refl _, Nat.le_refl _, Nat.le_refl _, id⟩

/-- The same script in the same place, under rules and limits that refuse less. -/
structure Env.Relaxed (tight loose : Env) : Prop where
  limits : tight.limits.Within loose.limits
  flags : loose.flags.Relaxes tight.flags
  version : loose.version = tight.version
  context : loose.context = tight.context
  digests : loose.digests = tight.digests
  script : loose.script = tight.script

section Numbers

/-- `loose` accepts every operand that `tight` accepts. -/
structure Number.Format.Within (tight loose : Number.Format) : Prop where
  limit : tight.limit ≤ loose.limit
  minimal : loose.minimal = true → tight.minimal = true

theorem Env.Relaxed.numberFormat {tight loose : Env} (h : tight.Relaxed loose) :
    tight.numberFormat.Within loose.numberFormat := ⟨h.limits.num, h.flags.has⟩

theorem Env.Relaxed.lockFormat {tight loose : Env} (h : tight.Relaxed loose) :
    tight.lockFormat.Within loose.lockFormat := ⟨Nat.le_refl _, h.flags.has⟩

variable {tight loose : Number.Format}

theorem Number.read_preserved (h : tight.Within loose) (item : Bytes) :
    Preserved (Number.read tight item) (Number.read loose item) := by
  refine .guard (fun hlong => Nat.lt_of_le_of_lt h.limit hlong) (.guard ?_ (.refl _))
  intro hpadded
  simp only [Bool.and_eq_true] at hpadded ⊢
  exact ⟨h.minimal hpadded.1, hpadded.2⟩

theorem Stack.takeNum_preserved (h : tight.Within loose) (s : Stack) :
    Preserved (s.takeNum tight) (s.takeNum loose) := by
  cases s with
  | nil => exact .error _ _
  | cons item rest =>
    intro taken htaken
    cases hread : Number.read tight item with
    | error fault => simp [takeNum, popNum, hread] at htaken
    | ok n =>
      simp only [takeNum, popNum, hread] at htaken
      simpa only [takeNum, popNum, Number.read_preserved h item n hread] using htaken

theorem Stack.getNum_preserved (h : tight.Within loose) (s : Stack) (index : Int) :
    Preserved (s.getNum index tight) (s.getNum index loose) :=
  .bind (.refl _) (Number.read_preserved h)

theorem Stack.takeDepth_preserved (h : tight.Within loose) (s : Stack) :
    Preserved (s.takeDepth tight) (s.takeDepth loose) :=
  .bind (takeNum_preserved h s) fun _ => .refl _

theorem NumberOp.run_preserved (h : tight.Within loose) (op : NumberOp) (s : Stack) :
    Preserved (op.run tight s) (op.run loose s) := by
  have htake := Stack.takeNum_preserved h
  cases op with
  | unary | unaryTest => exact .bind (htake s) fun _ => .refl _
  | binary | binaryTest | equalVerify =>
    exact .bind (htake s) fun taken => .bind (htake taken.2) fun _ => .refl _
  | within =>
    exact .bind (htake s) fun taken => .bind (htake taken.2) fun taken =>
      .bind (htake taken.2) fun _ => .refl _
  | pick | roll => exact .bind (Stack.takeDepth_preserved h s) fun _ => .refl _

end Numbers

variable {tight loose : Env}

section Flow

open Machine

theorem Machine.checkCondition_preserved (h : tight.Relaxed loose) (item : Bytes) :
    Preserved (checkCondition tight item) (checkCondition loose item) := by
  unfold checkCondition
  by_cases hl : loose.version = .witnessV0 ∧ loose.flags.has .minimalIf
  · have ht : tight.version = .witnessV0 ∧ tight.flags.has .minimalIf :=
      ⟨h.version ▸ hl.1, h.flags.has hl.2⟩
    rw [if_pos hl, if_pos ht]
    exact .refl _
  · rw [if_neg hl]
    intro _ _
    rfl

theorem Machine.openIf_preserved (h : tight.Relaxed loose) (negated : Bool) (m : Machine) :
    Preserved (openIf tight negated m) (openIf loose negated m) := by
  refine .branch (fun _ => ?_) fun _ => .refl _
  cases m.stack with
  | nil => exact .refl _
  | cons condition rest => exact .bind (checkCondition_preserved h condition) fun _ => .refl _

theorem Machine.upgradableNop_preserved (h : tight.Relaxed loose) (opcode : UInt8) (m : Machine) :
    Preserved (upgradableNop tight opcode m) (upgradableNop loose opcode m) :=
  .guard h.flags.has (.refl _)

theorem Machine.lockOperand_preserved (h : tight.Relaxed loose) (m : Machine) :
    Preserved (lockOperand tight m) (lockOperand loose m) :=
  .bind (Stack.getNum_preserved h.lockFormat m.stack (-1)) fun _ => .refl _

/-- A dropped lock-time rule leaves an opcode that does nothing, which is what the rule's own
check `x` does to a machine it admits. -/
theorem Machine.lockRule_preserved (h : tight.Relaxed loose) {rule : Rule}
    (hkeep : loose.flags.has .discourageUpgradableNops = true →
      tight.flags.has rule = true → loose.flags.has rule = true)
    (opcode : UInt8) (m : Machine) {x y : Except Fault Machine}
    (hx : ∀ m', x = .ok m' → m' = m) (hxy : Preserved x y) :
    Preserved (if tight.flags.has rule then x else upgradableNop tight opcode m)
      (if loose.flags.has rule then y else upgradableNop loose opcode m) := by
  by_cases hl : loose.flags.has rule = true
  · rw [if_pos hl, if_pos (h.flags.has hl)]
    exact hxy
  · rw [if_neg hl]
    by_cases ht : tight.flags.has rule = true
    · rw [if_pos ht]
      intro m' hm'
      have hnop : ¬loose.flags.has .discourageUpgradableNops = true := fun hd => hl (hkeep hd ht)
      rw [hx m' hm', upgradableNop, if_neg hnop]
    · rw [if_neg ht]
      exact upgradableNop_preserved h opcode m

theorem Machine.lockTimeVerify_preserved (h : tight.Relaxed loose) (opcode : UInt8) (m : Machine) :
    Preserved (lockTimeVerify tight opcode m) (lockTimeVerify loose opcode m) := by
  refine lockRule_preserved h h.flags.lockTime opcode m ?_ ?_
  · intro m' hm'
    grind [bind_eq_ok, pure_eq_ok]
  · rw [h.context]
    exact .bind (lockOperand_preserved h m) fun _ => .refl _

theorem Machine.sequenceVerify_preserved (h : tight.Relaxed loose) (opcode : UInt8) (m : Machine) :
    Preserved (sequenceVerify tight opcode m) (sequenceVerify loose opcode m) := by
  refine lockRule_preserved h h.flags.sequence opcode m ?_ ?_
  · intro m' hm'
    grind [bind_eq_ok, pure_eq_ok]
  · rw [h.context]
    exact .bind (lockOperand_preserved h m) fun _ => .refl _

end Flow

section Signatures

theorem Env.removeSignature_preserved (h : tight.Relaxed loose) (code : Script) (sig : Bytes) :
    Preserved (tight.removeSignature code sig) (loose.removeSignature code sig) := by
  unfold removeSignature
  rw [h.version]
  refine .branch (fun _ => .guard ?_ (.refl _)) fun _ => .refl _
  exact fun hfound => ⟨hfound.1, h.flags.has hfound.2⟩

theorem Env.removeSignatures_preserved (h : tight.Relaxed loose) (code : Script)
    (sigs : List Bytes) :
    Preserved (tight.removeSignatures code sigs) (loose.removeSignatures code sigs) :=
  .foldlM (removeSignature_preserved h) sigs code

theorem Env.checkSignatureEncoding_preserved (h : tight.Relaxed loose) (sig : Bytes) :
    Preserved (tight.checkSignatureEncoding sig) (loose.checkSignatureEncoding sig) := by
  unfold checkSignatureEncoding
  cases sig.getLast? with
  | none => exact .refl _
  | some hashType =>
    refine .guard ?_ (.guard ?_ (.guard ?_ (.refl _))) <;>
      simp only [Bool.and_eq_true, Bool.or_eq_true]
    · rintro ⟨(hd | hl) | hs, hloose⟩
      · exact ⟨.inl (.inl (h.flags.has hd)), hloose⟩
      · exact ⟨.inl (.inr (h.flags.has hl)), hloose⟩
      · exact ⟨.inr (h.flags.has hs), hloose⟩
    · exact fun ⟨hl, hhigh⟩ => ⟨h.flags.has hl, hhigh⟩
    · exact fun ⟨hs, hbad⟩ => ⟨h.flags.has hs, hbad⟩

theorem Env.checkKeyEncoding_preserved (h : tight.Relaxed loose) (key : Bytes) :
    Preserved (tight.checkKeyEncoding key) (loose.checkKeyEncoding key) := by
  unfold checkKeyEncoding
  rw [h.version]
  refine .guard ?_ (.guard ?_ (.refl _)) <;> simp only [Bool.and_eq_true]
  · exact fun ⟨hs, hbad⟩ => ⟨h.flags.has hs, hbad⟩
  · exact fun ⟨⟨hw, hv⟩, hbad⟩ => ⟨⟨h.flags.has hw, hv⟩, hbad⟩

theorem Env.checkSig_preserved (h : tight.Relaxed loose) (sig key : Bytes) (code : Script) :
    Preserved (tight.checkSig sig key code).result (loose.checkSig sig key code).result := by
  have hverdict : loose.verdict sig key code = tight.verdict sig key code := by
    rw [verdict, verdict, h.context, h.version]
  unfold checkSig
  rw [hverdict]
  refine .runBind (checkSignatureEncoding_preserved h sig) fun _ => ?_
  refine .runBind (checkKeyEncoding_preserved h key) fun _ => ?_
  exact .runBind (.refl _) fun _ => .refl _

theorem Machine.checkSig_preserved (h : tight.Relaxed loose) (verify : Bool) (m : Machine) :
    Preserved (checkSig tight verify m).result (checkSig loose verify m).result := by
  unfold checkSig
  match m.stack with
  | [] | [_] => exact .refl _
  | key :: sig :: rest =>
    refine .runBind (Env.removeSignature_preserved h m.code sig) fun code => ?_
    refine .runBind (Env.checkSig_preserved h sig key code) fun verdict => ?_
    rw [Run.result_ite, Run.result_ite]
    refine .guard ?_ (.refl _)
    simp only [Bool.and_eq_true]
    exact fun ⟨⟨hbad, hn⟩, hsig⟩ => ⟨⟨hbad, h.flags.has hn⟩, hsig⟩

theorem Machine.Multisig.countAt_preserved (h : tight.Relaxed loose) (s : Stack) (depth : Nat) :
    Preserved (countAt tight s depth) (countAt loose s depth) := by
  unfold countAt
  cases s[depth - 1]? with
  | none => exact .refl _
  | some item => exact .bind (Number.read_preserved h.numberFormat item) fun _ => .refl _

theorem Machine.Multisig.take_preserved (h : tight.Relaxed loose) (m : Machine) :
    Preserved (take tight m) (take loose m) := by
  have hkeys := h.limits.keys
  have hops := h.limits.ops
  refine .bind (countAt_preserved h m.stack 1) fun keyCount => ?_
  refine .guard (by omega) (.guard (by omega) ?_)
  exact .bind (countAt_preserved h m.stack _) fun _ => .refl _

theorem Machine.matchKeys_preserved (h : tight.Relaxed loose) (code : Script)
    (sigs keys : List Bytes) :
    Preserved (matchKeys tight code sigs keys).result (matchKeys loose code sigs keys).result := by
  induction keys generalizing sigs with
  | nil => cases sigs <;> exact .refl _
  | cons key keys ih =>
    cases sigs with
    | nil => exact .refl _
    | cons sig sigs =>
      refine .runBind (Env.checkSig_preserved h sig key code) fun good => ?_
      rw [Run.result_ite, Run.result_ite]
      exact .branch (fun _ => .refl _) fun _ => ih _

theorem Machine.checkMultisig_preserved (h : tight.Relaxed loose) (verify : Bool) (m : Machine) :
    Preserved (checkMultisig tight verify m).result (checkMultisig loose verify m).result := by
  refine .runBind (Multisig.take_preserved h m) fun ms => ?_
  refine .runBind (Env.removeSignatures_preserved h m.code ms.sigs) fun code => ?_
  refine .runBind (matchKeys_preserved h code ms.sigs ms.keys) fun verdict => ?_
  simp only [Run.result_ite]
  refine .guard ?_ (.guard ?_ (.refl _)) <;> simp only [Bool.and_eq_true]
  · exact fun ⟨⟨hbad, hn⟩, hsigs⟩ => ⟨⟨hbad, h.flags.has hn⟩, hsigs⟩
  · exact fun ⟨hn, hdummy⟩ => ⟨h.flags.has hn, hdummy⟩

end Signatures

section Execution

namespace Machine

theorem act_preserved (h : tight.Relaxed loose) (m : Machine) (here : Located) :
    Preserved (act tight m here).result (act loose m here).result := by
  dsimp only [act]
  -- Only the operations that look at rules or limits differ between the two sides; the digests that
  -- the others may look at are the same.
  cases Operation.ofOpcode here.instruction.opcode with
  | upgradableNop => exact upgradableNop_preserved h _ m
  | openIf negated => exact openIf_preserved h negated m
  | lockTime => exact lockTimeVerify_preserved h _ m
  | sequence => exact sequenceVerify_preserved h _ m
  | stack op =>
    dsimp only
    rw [h.digests]
    exact .refl _
  | number op =>
    exact .bind (NumberOp.run_preserved h.numberFormat op m.stack) fun _ => .refl _
  | checkSig verify => exact checkSig_preserved h verify m
  | checkMultisig verify => exact checkMultisig_preserved h verify m
  | _ => exact .refl _

theorem accept_preserved (h : tight.Relaxed loose) (m : Machine) (ins : Instruction) :
    Preserved (accept tight m ins) (accept loose m ins) := by
  refine .guard id (.guard ?_ (.guard ?_ (.guard ?_ (.guard ?_ (.refl _)))))
  · exact fun hlong => Nat.lt_of_le_of_lt h.limits.element hlong
  · exact fun ⟨hcounted, hmany⟩ => ⟨hcounted, Nat.lt_of_le_of_lt h.limits.ops hmany⟩
  · rintro ⟨hdisabled, hexecuting | hpolicy⟩
    · exact ⟨hdisabled, .inl hexecuting⟩
    · exact ⟨hdisabled, .inr (h.limits.policy hpolicy)⟩
  · exact fun ⟨hcode, hversion, hconst⟩ => ⟨hcode, h.version ▸ hversion, h.flags.has hconst⟩

theorem pushData_preserved (h : tight.Relaxed loose) (m : Machine) (ins : Instruction) :
    Preserved (pushData tight m ins) (pushData loose m ins) := by
  refine .guard ?_ (.refl _)
  simp only [Bool.and_eq_true]
  exact fun ⟨hminimal, hlong⟩ => ⟨h.flags.has hminimal, hlong⟩

theorem perform_preserved (h : tight.Relaxed loose) (m : Machine) (here : Located) :
    Preserved (perform tight m here).result (perform loose m here).result := by
  unfold perform
  simp only [Run.result_ite]
  refine .branch (fun _ => pushData_preserved h m _) fun _ => ?_
  exact .branch (fun _ => act_preserved h m here) fun _ => .refl _

theorem checkHeight_preserved (h : tight.Relaxed loose) (m : Machine) :
    Preserved (checkHeight tight m) (checkHeight loose m) :=
  .guard (fun htall => Nat.lt_of_le_of_lt h.limits.stack htall) (.refl _)

theorem step_preserved (h : tight.Relaxed loose) (m : Machine) (here : Located) :
    Preserved (step tight m here).result (step loose m here).result := by
  refine .runBind (.refl _) fun _ => ?_
  refine .runBind (accept_preserved h m here.instruction) fun m => ?_
  exact .runBind (perform_preserved h m here) fun m => checkHeight_preserved h m

theorem run_preserved (h : tight.Relaxed loose) (stack : Stack) :
    Preserved (run tight stack).result (run loose stack).result := by
  unfold run start
  rw [h.script]
  simp only [Run.result_ite]
  refine .guard (fun hlong => Nat.lt_of_le_of_lt h.limits.script hlong) ?_
  exact .runBind (.runFoldlM (step_preserved h) _ _) fun _ => .refl _

end Machine

theorem Env.execute_preserved (h : tight.Relaxed loose) (stack : Stack) :
    Preserved (tight.execute stack).result (loose.execute stack).result :=
  .runBind (Machine.run_preserved h stack) fun _ => .refl _

end Execution

end CoinScript
