import CoinScript.Machine.Step
import CoinScript.Proofs.Outcome

/-! # Faults of an execution

A false result is a fault of the judgement of a spend, never of an execution: a script that
leaves a false item has executed all the same. Every operation fails for a cause of its own.
-/
namespace CoinScript

variable {α β : Type}

/-- An outcome that is a fault only if the fault satisfies `P`. -/
def FailsWith (P : Fault → Prop) (x : Except Fault α) : Prop := ∀ fault, x = .error fault → P fault

namespace FailsWith

variable {P : Fault → Prop}

theorem ok (a : α) : FailsWith P (.ok a) := by
  intro fault h
  cases h

theorem error {fault : Fault} (h : P fault) : FailsWith P (.error fault : Except Fault α) := by
  intro _ herror
  cases herror
  exact h

theorem mono {Q : Fault → Prop} {x : Except Fault α} (hx : FailsWith P x)
    (h : ∀ fault, P fault → Q fault) : FailsWith Q x :=
  fun fault hfault => h fault (hx fault hfault)

theorem bind {x : Except Fault α} {f : α → Except Fault β} (hx : FailsWith P x)
    (hf : ∀ a, FailsWith P (f a)) : FailsWith P (x >>= f) := by
  intro fault h
  rcases bind_eq_error.mp h with h | ⟨a, -, h⟩
  · exact hx fault h
  · exact hf a fault h

theorem runBind {run : Run α} {next : α → Run β} (hrun : FailsWith P run.result)
    (hnext : ∀ a, run.result = .ok a → FailsWith P (next a).result) :
    FailsWith P (run >>= next).result := by
  intro fault h
  rcases Run.bind_error.mp h with h | ⟨a, ha, h⟩
  · exact hrun fault h
  · exact hnext a ha fault h

theorem branch {c : Prop} [Decidable c] {x y : Except Fault α} (hx : FailsWith P x)
    (hy : FailsWith P y) : FailsWith P (if c then x else y) := by
  split
  · exact hx
  · exact hy

theorem runBranch {c : Prop} [Decidable c] {x y : Run α} (hx : FailsWith P x.result)
    (hy : FailsWith P y.result) : FailsWith P (if c then x else y).result := by
  rw [Run.result_ite]
  exact hx.branch hy

theorem foldlM {f : β → α → Except Fault β} (h : ∀ b a, FailsWith P (f b a)) (xs : List α)
    (b : β) : FailsWith P (xs.foldlM f b) := by
  induction xs generalizing b with
  | nil => exact ok b
  | cons x xs ih =>
    rw [List.foldlM_cons]
    exact (h b x).bind ih

theorem runFoldlM {f : β → α → Run β} (h : ∀ b a, FailsWith P (f b a).result) (xs : List α)
    (b : β) : FailsWith P (xs.foldlM f b).result := by
  induction xs generalizing b with
  | nil => exact ok b
  | cons x xs ih =>
    rw [List.foldlM_cons]
    exact (h b x).runBind fun b _ => ih b

end FailsWith

/-- An outcome that is no false result. -/
abbrev NotFalse (x : Except Fault α) : Prop := FailsWith (fun fault => fault.code ≠ .evalFalse) x

section Stacks

theorem Number.read_notFalse (format : Format) (item : Bytes) : NotFalse (read format item) :=
  .branch (.error nofun) (.branch (.error nofun) (.ok _))

namespace Stack

variable (s : Stack) (index : Int) (format : Number.Format) (n : Nat)

theorem peek_notFalse : NotFalse (s.peek index) := by
  unfold peek
  split
  · exact .ok _
  · exact .error nofun

theorem remove_notFalse : NotFalse (s.remove index) := by
  unfold remove
  split
  · exact .ok _
  · exact .error nofun

theorem insert_notFalse (item : Bytes) : NotFalse (s.insert index item) := by
  unfold insert
  split
  · exact .ok _
  · exact .error nofun

theorem pop_notFalse : NotFalse s.pop := by
  cases s with
  | nil => exact .error nofun
  | cons item rest => exact .ok _

theorem dropTop_notFalse : NotFalse s.dropTop := (pop_notFalse s).bind fun _ => .ok _

theorem nip_notFalse : NotFalse s.nip := (remove_notFalse s _).bind fun _ => .ok _

theorem tuck_notFalse : NotFalse s.tuck :=
  (peek_notFalse s _).bind fun _ => insert_notFalse s _ _

theorem pick_notFalse : NotFalse (s.pick n) := (peek_notFalse s _).bind fun _ => .ok _

theorem roll_notFalse : NotFalse (s.roll n) := (remove_notFalse s _).bind fun _ => .ok _

theorem takeNum_notFalse : NotFalse (s.takeNum format) := by
  cases s with
  | nil => exact .error nofun
  | cons item rest =>
    have hread := Number.read_notFalse format item
    dsimp only [takeNum, popNum]
    cases h : Number.read format item with
    | ok => exact .ok _
    | error fault => exact .error (hread fault h)

theorem takeDepth_notFalse : NotFalse (s.takeDepth format) :=
  (takeNum_notFalse s format).bind fun _ => .branch (.error nofun) (.ok _)

theorem getNum_notFalse : NotFalse (s.getNum index format) :=
  (peek_notFalse s index).bind fun _ => Number.read_notFalse format _

end Stack

theorem StackOp.popEqual_notFalse (s : Stack) : NotFalse (popEqual s) :=
  (Stack.pop_notFalse s).bind fun popped => (Stack.pop_notFalse popped.2).bind fun _ => .ok _

theorem StackOp.run_notFalse (digests : Digests) (op : StackOp) (s : Stack) :
    NotFalse (op.run digests s) := by
  cases op with
  | verify =>
    refine .bind ((Stack.peek_notFalse s _).bind fun _ => .ok _) fun _ => ?_
    exact .branch (Stack.dropTop_notFalse s) (.error nofun)
  | drop => exact Stack.dropTop_notFalse s
  | dropPair =>
    match s with
    | [] | [_] => exact .error nofun
    | _ :: _ :: rest => exact .ok _
  | dup | copyOver | rot | swap => exact .branch (.error nofun) (.ok _)
  | ifDup | size => exact (Stack.peek_notFalse s _).bind fun _ => .ok _
  | depth => exact .ok _
  | nip => exact Stack.nip_notFalse s
  | tuck => exact Stack.tuck_notFalse s
  | equal => exact (popEqual_notFalse s).bind fun _ => .ok _
  | equalVerify =>
    exact (popEqual_notFalse s).bind fun _ => .branch (.ok _) (.error nofun)
  | hash op => exact (Stack.pop_notFalse s).bind fun _ => .ok _

theorem NumberOp.run_notFalse (format : Number.Format) (op : NumberOp) (s : Stack) :
    NotFalse (op.run format s) := by
  have htake (s : Stack) := Stack.takeNum_notFalse s format
  cases op with
  | unary | unaryTest => exact (htake s).bind fun _ => .ok _
  | binary | binaryTest => exact (htake s).bind fun taken => (htake taken.2).bind fun _ => .ok _
  | equalVerify =>
    refine (htake s).bind fun taken => (htake taken.2).bind fun _ => ?_
    exact .branch (.ok _) (.error nofun)
  | within =>
    exact (htake s).bind fun taken => (htake taken.2).bind fun taken =>
      (htake taken.2).bind fun _ => .ok _
  | pick =>
    exact (Stack.takeDepth_notFalse s format).bind fun taken => Stack.pick_notFalse taken.2 taken.1
  | roll =>
    exact (Stack.takeDepth_notFalse s format).bind fun taken => Stack.roll_notFalse taken.2 taken.1

end Stacks

variable (env : Env)

section Signatures

theorem Env.removeSignature_notFalse (code : Script) (sig : Bytes) :
    NotFalse (env.removeSignature code sig) :=
  .branch (.branch (.error nofun) (.ok _)) (.ok _)

theorem Env.checkSignatureEncoding_notFalse (sig : Bytes) :
    NotFalse (env.checkSignatureEncoding sig) := by
  unfold checkSignatureEncoding
  cases sig.getLast? with
  | none => exact .ok _
  | some => exact .branch (.error nofun) (.branch (.error nofun) (.branch (.error nofun) (.ok _)))

theorem Env.checkKeyEncoding_notFalse (key : Bytes) : NotFalse (env.checkKeyEncoding key) :=
  .branch (.error nofun) (.branch (.error nofun) (.ok _))

theorem Env.checkSig_notFalse (sig key : Bytes) (code : Script) :
    NotFalse (env.checkSig sig key code).result :=
  .runBind (env.checkSignatureEncoding_notFalse sig) fun _ _ =>
    .runBind (env.checkKeyEncoding_notFalse key) fun _ _ => .runBind (.ok _) fun _ _ => .ok _

namespace Machine

variable (m : Machine)

theorem settle_notFalse (verify verdict : Bool) {fault : Fault} (h : fault.code ≠ .evalFalse) :
    NotFalse (settle verify fault verdict m) :=
  .branch (.branch (.ok _) (.error h)) (.ok _)

theorem checkSig_notFalse (verify : Bool) : NotFalse (checkSig env verify m).result := by
  unfold checkSig
  split
  · refine .runBind (env.removeSignature_notFalse _ _) fun code _ => ?_
    refine .runBind (env.checkSig_notFalse _ _ code) fun verdict _ => ?_
    exact .runBranch (.error nofun) (settle_notFalse _ verify verdict nofun)
  · exact .error nofun

theorem Multisig.countAt_notFalse (s : Stack) (depth : Nat) : NotFalse (countAt env s depth) := by
  unfold countAt
  cases s[depth - 1]? with
  | none => exact .error nofun
  | some item => exact (Number.read_notFalse _ item).bind fun _ => .ok _

theorem Multisig.take_notFalse : NotFalse (take env m) := by
  refine (countAt_notFalse env m.stack 1).bind fun keyCount => ?_
  refine .branch (.error nofun) (.branch (.error nofun) ?_)
  refine (countAt_notFalse env m.stack _).bind fun sigCount => .branch (.error nofun) ?_
  dsimp only
  split
  · exact .ok _
  · exact .error nofun

theorem matchKeys_notFalse (code : Script) (sigs keys : List Bytes) :
    NotFalse (matchKeys env code sigs keys).result := by
  induction keys generalizing sigs with
  | nil => cases sigs <;> exact .ok _
  | cons key keys ih =>
    cases sigs with
    | nil => exact .ok _
    | cons sig sigs =>
      exact .runBind (env.checkSig_notFalse sig key code) fun _ _ => .runBranch (.ok _) (ih _)

theorem checkMultisig_notFalse (verify : Bool) : NotFalse (checkMultisig env verify m).result := by
  refine .runBind (Multisig.take_notFalse env m) fun ms _ => ?_
  refine .runBind (.foldlM env.removeSignature_notFalse ms.sigs m.code) fun code _ => ?_
  refine .runBind (matchKeys_notFalse env code ms.sigs ms.keys) fun verdict _ => ?_
  refine .runBranch (.error nofun) (.runBranch (.error nofun) ?_)
  exact settle_notFalse _ verify verdict nofun

end Machine

end Signatures

namespace Machine

variable (m : Machine)

section Flow

theorem checkCondition_notFalse (item : Bytes) : NotFalse (checkCondition env item) := by
  unfold checkCondition
  refine .branch ?_ (.ok _)
  split
  · exact .ok _
  · exact .branch (.ok _) (.error nofun)
  · exact .error nofun

theorem openIf_notFalse (negated : Bool) : NotFalse (openIf env negated m) := by
  unfold openIf
  refine .branch ?_ (.ok _)
  split
  · exact .error nofun
  · exact (checkCondition_notFalse env _).bind fun _ => .ok _

theorem switchBranch_notFalse : NotFalse (switchBranch m) := by
  unfold switchBranch
  cases m.branches with
  | nil => exact .error nofun
  | cons => exact .ok _

theorem closeIf_notFalse : NotFalse (closeIf m) := by
  unfold closeIf
  cases m.branches with
  | nil => exact .error nofun
  | cons => exact .ok _

theorem fromAlt_notFalse : NotFalse (fromAlt m) := by
  unfold fromAlt
  split
  · exact .error nofun
  · exact .ok _

theorem upgradableNop_notFalse (opcode : UInt8) : NotFalse (upgradableNop env opcode m) :=
  .branch (.error nofun) (.ok _)

theorem lockOperand_notFalse : NotFalse (lockOperand env m) :=
  (Stack.getNum_notFalse m.stack _ _).bind fun _ => .branch (.error nofun) (.ok _)

theorem lockTimeVerify_notFalse (opcode : UInt8) : NotFalse (lockTimeVerify env opcode m) := by
  refine .branch ((lockOperand_notFalse env m).bind fun lock => ?_)
    (upgradableNop_notFalse env m opcode)
  split
  · exact .error nofun
  · refine .bind ?_ fun _ => .ok _
    exact .branch (.error nofun) (.branch (.error nofun) (.branch (.error nofun) (.ok _)))

theorem sequenceVerify_notFalse (opcode : UInt8) : NotFalse (sequenceVerify env opcode m) := by
  refine .branch ((lockOperand_notFalse env m).bind fun lock => .branch (.ok _) ?_)
    (upgradableNop_notFalse env m opcode)
  split
  · exact .error nofun
  · refine .bind ?_ fun _ => .ok _
    exact .branch (.error nofun) (.branch (.error nofun) (.branch (.error nofun)
      (.branch (.error nofun) (.ok _))))

end Flow

section Execution

variable (here : Located)

theorem act_notFalse : NotFalse (act env m here).result := by
  dsimp only [act]
  cases Operation.ofOpcode here.instruction.opcode with
  | constant | nop | codeSeparator => exact .ok _
  | earlyReturn | invalid => exact .error nofun
  | upgradableNop => exact upgradableNop_notFalse env m _
  | openIf negated => exact openIf_notFalse env m negated
  | switch => exact switchBranch_notFalse m
  | closeIf => exact closeIf_notFalse m
  | lockTime => exact lockTimeVerify_notFalse env m _
  | sequence => exact sequenceVerify_notFalse env m _
  | toAlt => exact (Stack.pop_notFalse m.stack).bind fun _ => .ok _
  | fromAlt => exact fromAlt_notFalse m
  | stack op => exact (op.run_notFalse env.digests m.stack).bind fun _ => .ok _
  | number op => exact (op.run_notFalse env.numberFormat m.stack).bind fun _ => .ok _
  | checkSig verify => exact checkSig_notFalse env m verify
  | checkMultisig verify => exact checkMultisig_notFalse env m verify

theorem accept_notFalse (ins : Instruction) : NotFalse (accept env m ins) :=
  .branch (.error nofun) (.branch (.error nofun) (.branch (.error nofun) (.branch (.error nofun)
    (.branch (.error nofun) (.ok _)))))

theorem perform_notFalse : NotFalse (perform env m here).result :=
  .runBranch (.branch (.error nofun) (.ok _)) (.runBranch (act_notFalse env m here) (.ok _))

theorem step_notFalse : NotFalse (step env m here).result := by
  refine .runBind (.ok _) fun _ _ => .runBind (accept_notFalse env m here.instruction) fun m _ => ?_
  exact .runBind (perform_notFalse env m here) fun m _ => .branch (.error nofun) (.ok _)

theorem run_notFalse (stack : Stack) : NotFalse (run env stack).result := by
  refine .runBranch (.error nofun) (.runBind (.runFoldlM (step_notFalse env) _ _) fun m _ => ?_)
  exact .runBranch (.ok _) (.error nofun)

end Execution

end Machine

/-- No execution fails for a false result. -/
theorem Env.execute_notFalse (stack : Stack) : NotFalse (env.execute stack).result :=
  .runBind (Machine.run_notFalse env stack) fun _ _ => .ok _

end CoinScript
