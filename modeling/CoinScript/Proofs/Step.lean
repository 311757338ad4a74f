import CoinScript.Machine.Step
import CoinScript.Proofs.Outcome

/-! # What a step can do

A step succeeds when its instruction is accepted, performed, and leaves the stacks within
their limit. Acceptance looks at the instruction and the count of operations, and at the
branches only to see whether the instruction executes. Apart from the opcodes that open,
switch and close conditionals, no instruction reads or changes the branches.
-/
namespace CoinScript

namespace Opcode

def notIf : UInt8 := 0x64
def verIf : UInt8 := 0x65
def verNotIf : UInt8 := 0x66
def otherwise : UInt8 := 0x67

def opens (opcode : UInt8) : Bool := opcode = ifTrue || opcode = notIf

theorem forall_byte {P : UInt8 → Prop} (h : ∀ i : Fin 256, P (UInt8.ofFin i)) (b : UInt8) : P b :=
  h b.toFin

theorem isConditional_iff (opcode : UInt8) : isConditional opcode = true ↔
    opens opcode = true ∨ (opcode = verIf ∨ opcode = verNotIf) ∨ opcode = otherwise ∨
      opcode = endIf := by
  revert opcode
  exact forall_byte (by decide +kernel)

theorem isPush_of_isConditional {opcode : UInt8} (h : isConditional opcode = true) :
    isPush opcode = false := by
  revert opcode
  exact @(forall_byte (by decide +kernel))

end Opcode

namespace Operation

/-- The operations that act on the branches. -/
def isFlow : Operation → Bool
  | openIf _ | switch | closeIf => true
  | _ => false

theorem isFlow_ofOpcode (opcode : UInt8) :
    (ofOpcode opcode).isFlow = true → Opcode.isConditional opcode = true := by
  revert opcode
  exact Opcode.forall_byte (by decide +kernel)

end Operation

namespace Machine

section Acceptance

/-- The machine with an instruction counted. -/
def count (m : Machine) (ins : Instruction) : Machine :=
  { m with ops := if Opcode.isCounted ins.opcode then m.ops + 1 else m.ops }

theorem le_count (m : Machine) (ins : Instruction) : m.ops ≤ (m.count ins).ops := by
  dsimp only [count]
  split <;> omega

/-- What an instruction has to satisfy at any place in a script, after `ops` operations. -/
structure Accepts (env : Env) (executing : Bool) (ops : Nat) (ins : Instruction) : Prop where
  whole : ins.cut = false
  element : ins.data.length ≤ env.limits.maxElementSize
  counted : Opcode.isCounted ins.opcode = true → ops + 1 ≤ env.limits.maxOps
  enabled : Opcode.isDisabled ins.opcode = true →
    executing = false ∧ env.limits.disabledPolicy ≠ .always
  separator : ins.opcode = Opcode.codeSeparator → env.version = .base →
    env.flags.has .constScriptCode = false

theorem Accepts.of_fewer {env : Env} {executing : Bool} {ops ops' : Nat} {ins : Instruction}
    (h : Accepts env executing ops ins) (hops : ops' ≤ ops) : Accepts env executing ops' ins :=
  { h with counted := fun hcounted => Nat.le_trans (Nat.succ_le_succ hops) (h.counted hcounted) }

variable {env : Env} {m m' : Machine} {ins : Instruction} {here : Located} {fault : Fault}

theorem accept_eq_ok_iff : accept env m ins = .ok m' ↔
    Accepts env m.executing m.ops ins ∧ m' = m.count ins := by
  unfold accept
  constructor
  · intro h
    grind [Accepts, count]
  · rintro ⟨⟨hwhole, helement, hcounted, henabled, hseparator⟩, rfl⟩
    grind [count]

inductive Refusal (env : Env) (executing : Bool) (ops : Nat) (ins : Instruction) : Fault → Prop
  | cut : ins.cut = true → Refusal env executing ops ins (.cutPush ins.opcode)
  | element : env.limits.maxElementSize < ins.data.length →
    Refusal env executing ops ins (.longElement ins.data.length env.limits.maxElementSize)
  | counted : Opcode.isCounted ins.opcode = true → env.limits.maxOps < ops + 1 →
    Refusal env executing ops ins (.tooManyOps env.limits.maxOps)
  | disabled : Opcode.isDisabled ins.opcode = true →
    executing = true ∨ env.limits.disabledPolicy = .always →
    Refusal env executing ops ins (.disabled ins.opcode)
  | separator : ins.opcode = Opcode.codeSeparator → env.version = .base →
    env.flags.has .constScriptCode = true → Refusal env executing ops ins .codeSeparator

theorem refusal_of_accept (h : accept env m ins = .error fault) :
    Refusal env m.executing m.ops ins fault := by
  unfold accept at h
  grind [Refusal]

theorem checkHeight_eq_ok_iff : checkHeight env m = .ok m' ↔
    m = m' ∧ m.stack.length + m.alt.length ≤ env.limits.maxStackSize := by
  unfold checkHeight
  grind

theorem step_ok_iff : (step env m here).result = .ok m' ↔
    Accepts env m.executing m.ops here.instruction ∧
    (perform env (m.count here.instruction) here).result = .ok m' ∧
    m'.stack.length + m'.alt.length ≤ env.limits.maxStackSize := by
  simp only [step, Run.bind_ok, Run.result_emit, Run.result_ofExcept, accept_eq_ok_iff,
    checkHeight_eq_ok_iff, true_and, exists_const]
  constructor
  · rintro ⟨-, ⟨haccepts, rfl⟩, _, hperform, rfl, hheight⟩
    exact ⟨haccepts, hperform, hheight⟩
  · rintro ⟨haccepts, hperform, hheight⟩
    exact ⟨_, ⟨haccepts, rfl⟩, m', hperform, rfl, hheight⟩

theorem step_error (h : (step env m here).result = .error fault) :
    accept env m here.instruction = .error fault ∨
    Accepts env m.executing m.ops here.instruction ∧
      ((perform env (m.count here.instruction) here).result = .error fault ∨
      ∃ m', (perform env (m.count here.instruction) here).result = .ok m' ∧
        env.limits.maxStackSize < m'.stack.length + m'.alt.length ∧
        fault = .tallStack (m'.stack.length + m'.alt.length) env.limits.maxStackSize) := by
  simp only [step, Run.bind_error, Run.result_emit, Run.result_ofExcept, reduceCtorEq, false_or,
    true_and, exists_const] at h
  rcases h with h | ⟨counted, hcounted, h⟩
  · exact .inl h
  · obtain ⟨haccepts, rfl⟩ := accept_eq_ok_iff.mp hcounted
    refine .inr ⟨haccepts, ?_⟩
    rcases h with h | ⟨m', hperform, h⟩
    · exact .inl h
    · refine .inr ⟨m', hperform, ?_⟩
      unfold checkHeight at h
      grind

end Acceptance

section Performance

variable {env : Env} {m m' : Machine} {here : Located}

theorem perform_cases (h : (perform env m here).result = .ok m') :
    (m.executing = true ∧ here.instruction.isPush = true ∧
      pushData env m here.instruction = .ok m') ∨
    (m.executing = true ∨ Opcode.isConditional here.instruction.opcode = true) ∧
      (act env m here).result = .ok m' ∨
    m.executing = false ∧ m' = m := by
  unfold perform at h
  split at h
  · next hpush =>
    obtain ⟨hexec, hpush⟩ := Bool.and_eq_true_iff.mp hpush
    exact .inl ⟨hexec, hpush, h⟩
  · split at h
    · next hacts => exact .inr (.inl ⟨Bool.or_eq_true_iff.mp hacts, h⟩)
    · next hskipped =>
      rw [Bool.or_eq_true_iff, not_or] at hskipped
      cases h
      exact .inr (.inr ⟨Bool.eq_false_iff.mpr hskipped.1, rfl⟩)

theorem pushData_eq_ok_iff {ins : Instruction} : pushData env m ins = .ok m' ↔
    (env.requireMinimal = true → ins.isMinimal = true) ∧
      m' = { m with stack := m.stack.push ins.data } := by
  unfold pushData
  grind

/-- In a branch that is not taken, only the conditional opcodes act. -/
theorem perform_skipped (hm : m.executing = false)
    (hflow : Opcode.isConditional here.instruction.opcode = false) :
    perform env m here = pure m := by
  simp [perform, hm, hflow]

theorem perform_conditional (hflow : Opcode.isConditional here.instruction.opcode = true) :
    perform env m here = act env m here := by
  simp [perform, hflow, Instruction.isPush, Opcode.isPush_of_isConditional hflow]

theorem perform_open (h : Opcode.opens here.instruction.opcode = true) : perform env m here =
    Run.ofExcept (openIf env (here.instruction.opcode = Opcode.notIf) m) := by
  rw [perform_conditional ((Opcode.isConditional_iff _).mpr (.inl h))]
  dsimp only [act]
  rcases Bool.or_eq_true_iff.mp h with h | h <;> rw [of_decide_eq_true h] <;> rfl

theorem perform_ver (h : here.instruction.opcode = Opcode.verIf ∨
    here.instruction.opcode = Opcode.verNotIf) :
    perform env m here = Run.fail (.invalidOpcode here.instruction.opcode) := by
  rw [perform_conditional ((Opcode.isConditional_iff _).mpr (.inr (.inl h)))]
  dsimp only [act]
  rcases h with h | h <;> rw [h] <;> rfl

theorem perform_otherwise (h : here.instruction.opcode = Opcode.otherwise) :
    perform env m here = Run.ofExcept (switchBranch m) := by
  rw [perform_conditional ((Opcode.isConditional_iff _).mpr (.inr (.inr (.inl h))))]
  dsimp only [act]
  rw [h]
  rfl

theorem perform_endIf (h : here.instruction.opcode = Opcode.endIf) :
    perform env m here = Run.ofExcept (closeIf m) := by
  rw [perform_conditional ((Opcode.isConditional_iff _).mpr (.inr (.inr (.inr h))))]
  dsimp only [act]
  rw [h]
  rfl

theorem openIf_reached {negated : Bool} (hm : m.executing = true)
    (h : openIf env negated m = .ok m') : ∃ condition rest, m.stack = condition :: rest ∧
      m' = { m with stack := rest, branches := (condition.isTrue != negated) :: m.branches } := by
  simp only [openIf, hm, ↓reduceIte] at h
  cases hs : m.stack with
  | nil => simp [hs] at h
  | cons condition rest =>
    simp only [hs] at h
    obtain ⟨_, -, h⟩ := bind_eq_ok.mp h
    exact ⟨condition, rest, rfl, (pure_eq_ok.mp h).symm⟩

theorem openIf_skipped (hm : m.executing = false) (negated : Bool) :
    openIf env negated m = .ok { m with branches := false :: m.branches } := by
  simp [openIf, hm, Branches.enter]

theorem switchBranch_eq_ok_iff : switchBranch m = .ok m' ↔
    ∃ taken branches, m.branches = taken :: branches ∧
      m' = { m with branches := (!taken) :: branches } := by
  unfold switchBranch
  cases m.branches with
  | nil => simp only [Branches.toggle, bind_eq_ok, reduceCtorEq, false_and, exists_false]
  | cons taken branches =>
    simp only [Branches.toggle, bind_eq_ok, pure_eq_ok, Except.ok.injEq, List.cons.injEq]
    grind

theorem closeIf_eq_ok_iff : closeIf m = .ok m' ↔
    ∃ taken branches, m.branches = taken :: branches ∧ m' = { m with branches } := by
  unfold closeIf
  cases m.branches with
  | nil => simp only [Branches.leave, bind_eq_ok, reduceCtorEq, false_and, exists_false]
  | cons taken branches =>
    simp only [Branches.leave, bind_eq_ok, pure_eq_ok, Except.ok.injEq, List.cons.injEq]
    grind

end Performance

section Frame

/-- The machine in other branches and after another number of operations. -/
def rebase (m : Machine) (branches : Branches) (ops : Nat) : Machine := { m with branches, ops }

theorem openIf_rebase {env : Env} {m m' : Machine} {negated : Bool}
    (h : openIf env negated m = .ok m') : ∃ taken, m'.branches = taken :: m.branches ∧
      m'.ops = m.ops ∧ ∀ branches ops, branches.allTaken = m.branches.allTaken →
        openIf env negated (m.rebase branches ops) = .ok (m'.rebase (taken :: branches) ops) := by
  have hrebased {branches ops} (htaken : Branches.allTaken branches = m.branches.allTaken) :
      (m.rebase branches ops).executing = m.executing := htaken
  cases hm : m.executing with
  | false =>
    cases (openIf_skipped hm negated).symm.trans h
    refine ⟨false, rfl, rfl, fun branches ops htaken => ?_⟩
    exact openIf_skipped ((hrebased htaken).trans hm) negated
  | true =>
    cases hs : m.stack with
    | nil => simp [openIf, hm, hs] at h
    | cons condition rest =>
      simp only [openIf, hm, ↓reduceIte, hs] at h
      obtain ⟨_, hcondition, h⟩ := bind_eq_ok.mp h
      cases h
      refine ⟨condition.isTrue != negated, rfl, rfl, fun branches ops htaken => ?_⟩
      have hstack : (m.rebase branches ops).stack = condition :: rest := hs
      simp only [openIf, hrebased htaken, hm, ↓reduceIte, hstack]
      exact bind_eq_ok.mpr ⟨(), hcondition, rfl⟩

/-- An operation that leaves branches and count alone and does not look at them. -/
def Rebases (f : Machine → Except Fault Machine) : Prop :=
  ∀ m m', f m = .ok m' → m'.branches = m.branches ∧ m'.ops = m.ops ∧
    ∀ branches ops, f (m.rebase branches ops) = .ok (m'.rebase branches ops)

/-- An operation that leaves the branches alone, does not look at them, and minds the count of
operations only as far as it is too high. -/
def IgnoresBranches (f : Machine → Except Fault Machine) : Prop :=
  ∀ m m', f m = .ok m' → m'.branches = m.branches ∧ m.ops ≤ m'.ops ∧
    ∀ branches ops, ops ≤ m.ops → ∃ ops' ≤ m'.ops,
      f (m.rebase branches ops) = .ok (m'.rebase branches ops')

theorem Rebases.ignoresBranches {f : Machine → Except Fault Machine} (h : Rebases f) :
    IgnoresBranches f := by
  intro m m' hm
  obtain ⟨hbranches, hops, hrebase⟩ := h m m' hm
  exact ⟨hbranches, Nat.le_of_eq hops.symm, fun branches ops hle =>
    ⟨ops, hops ▸ hle, hrebase branches ops⟩⟩

theorem onStack_rebases (op : Stack → Except Fault Stack) : Rebases (onStack op) := by
  intro m m' h
  obtain ⟨stack, hstack, h⟩ := bind_eq_ok.mp h
  cases h
  exact ⟨rfl, rfl, fun _ _ => bind_eq_ok.mpr ⟨stack, hstack, rfl⟩⟩

/-- An operation that returns a machine as it is, if it passes a check of its stack. -/
theorem rebases_of_check {f : Machine → Except Fault Machine} {Passes : Machine → Prop}
    (hf : ∀ m m', f m = .ok m' ↔ m' = m ∧ Passes m)
    (hpasses : ∀ m branches ops, Passes m → Passes (m.rebase branches ops)) : Rebases f := by
  intro m m' h
  obtain ⟨rfl, hm⟩ := (hf m m').mp h
  exact ⟨rfl, rfl, fun branches ops => (hf _ _).mpr ⟨rfl, hpasses _ branches ops hm⟩⟩

theorem upgradableNop_eq_ok_iff {env : Env} {opcode : UInt8} {m m' : Machine} :
    upgradableNop env opcode m = .ok m' ↔
      m' = m ∧ env.flags.has .discourageUpgradableNops = false := by
  unfold upgradableNop
  grind

def lockOperandOf (env : Env) (s : Stack) : Except Fault Nat := do
  let n ← s.getNum (-1) env.lockFormat
  if n < 0 then .error (.negativeLock n) else return n.toNat

theorem lockTimeVerify_eq_ok_iff {env : Env} {opcode : UInt8} {m m' : Machine} :
    lockTimeVerify env opcode m = .ok m' ↔ m' = m ∧
      if env.flags.has .checkLockTimeVerify then
        ∃ lock ctx, lockOperandOf env m.stack = .ok lock ∧ env.context = some ctx ∧
          checkLockTime ctx lock = .ok ()
      else env.flags.has .discourageUpgradableNops = false := by
  unfold lockTimeVerify
  split
  · change (lockOperandOf env m.stack >>= _) = _ ↔ _
    rw [bind_eq_ok]
    cases env.context with
    | none => simp
    | some ctx =>
      constructor
      · rintro ⟨lock, hlock, h⟩
        obtain ⟨_, hcheck, h⟩ := bind_eq_ok.mp h
        exact ⟨(pure_eq_ok.mp h).symm, lock, ctx, hlock, rfl, hcheck⟩
      · rintro ⟨rfl, lock, _, hlock, hctx, hcheck⟩
        cases hctx
        exact ⟨lock, hlock, bind_eq_ok.mpr ⟨(), hcheck, rfl⟩⟩
  · exact upgradableNop_eq_ok_iff

theorem sequenceVerify_eq_ok_iff {env : Env} {opcode : UInt8} {m m' : Machine} :
    sequenceVerify env opcode m = .ok m' ↔ m' = m ∧
      if env.flags.has .checkSequenceVerify then
        ∃ lock, lockOperandOf env m.stack = .ok lock ∧ (lock &&& sequenceDisabledBit ≠ 0 ∨
          ∃ ctx, env.context = some ctx ∧ checkSequence ctx lock = .ok ())
      else env.flags.has .discourageUpgradableNops = false := by
  unfold sequenceVerify
  split
  · change (lockOperandOf env m.stack >>= _) = _ ↔ _
    rw [bind_eq_ok]
    constructor
    · rintro ⟨lock, hlock, h⟩
      split at h
      · next hdisabled => exact ⟨(pure_eq_ok.mp h).symm, lock, hlock, .inl hdisabled⟩
      · split at h
        · cases h
        · next ctx hctx =>
          obtain ⟨_, hcheck, h⟩ := bind_eq_ok.mp h
          exact ⟨(pure_eq_ok.mp h).symm, lock, hlock, .inr ⟨ctx, hctx, hcheck⟩⟩
    · rintro ⟨rfl, lock, hlock, hlocked⟩
      refine ⟨lock, hlock, ?_⟩
      by_cases hdisabled : lock &&& sequenceDisabledBit ≠ 0
      · exact if_pos hdisabled
      · obtain ⟨ctx, hctx, hcheck⟩ := hlocked.resolve_left hdisabled
        rw [if_neg hdisabled, hctx]
        exact bind_eq_ok.mpr ⟨(), hcheck, rfl⟩
  · exact upgradableNop_eq_ok_iff

theorem upgradableNop_rebases (env : Env) (opcode : UInt8) : Rebases (upgradableNop env opcode) :=
  rebases_of_check (fun _ _ => upgradableNop_eq_ok_iff) fun _ _ _ => id

theorem lockTimeVerify_rebases (env : Env) (opcode : UInt8) : Rebases (lockTimeVerify env opcode) :=
  rebases_of_check (fun _ _ => lockTimeVerify_eq_ok_iff) fun _ _ _ => id

theorem sequenceVerify_rebases (env : Env) (opcode : UInt8) : Rebases (sequenceVerify env opcode) :=
  rebases_of_check (fun _ _ => sequenceVerify_eq_ok_iff) fun _ _ _ => id

theorem toAlt_rebases : Rebases toAlt := by
  intro m m' h
  obtain ⟨popped, hpopped, h⟩ := bind_eq_ok.mp h
  cases h
  exact ⟨rfl, rfl, fun _ _ => bind_eq_ok.mpr ⟨popped, hpopped, rfl⟩⟩

theorem fromAlt_rebases : Rebases fromAlt := by
  intro m m' h
  unfold fromAlt at h ⊢
  cases halt : m.alt with
  | nil => simp [halt] at h
  | cons item rest =>
    simp only [halt, Except.ok.injEq] at h
    subst h
    exact ⟨rfl, rfl, fun _ _ => by simp [rebase, halt]⟩

theorem settle_rebases (verify : Bool) (fault : Fault) (verdict : Bool) :
    Rebases (settle verify fault verdict) := by
  intro m m' h
  cases verify <;> cases verdict <;> cases h <;> exact ⟨rfl, rfl, fun _ _ => rfl⟩

theorem checkSig_rebases (env : Env) (verify : Bool) :
    Rebases fun m => (checkSig env verify m).result := by
  intro m m' h
  dsimp only at h ⊢
  match hs : m.stack with
  | [] | [_] => simp [checkSig, hs] at h
  | key :: sig :: rest =>
    simp only [checkSig, hs] at h
    obtain ⟨code, hcode, h⟩ := Run.bind_ok.mp h
    obtain ⟨verdict, hverdict, h⟩ := Run.bind_ok.mp h
    rw [Run.result_ite] at h
    split at h
    · cases h
    · next hnull =>
      obtain ⟨hbranches, hops, hrebase⟩ := settle_rebases _ _ _ _ _ h
      refine ⟨hbranches, hops, fun branches ops => ?_⟩
      simp only [checkSig, rebase, hs]
      refine Run.bind_ok.mpr ⟨code, hcode, Run.bind_ok.mpr ⟨verdict, hverdict, ?_⟩⟩
      rw [Run.result_ite, if_neg hnull]
      exact hrebase branches ops

theorem Multisig.take_rebase {env : Env} {m : Machine} {ms : Multisig} (h : take env m = .ok ms) :
    ∃ n, ms.ops = m.ops + n ∧ ∀ branches ops, ops ≤ m.ops →
      take env (m.rebase branches ops) = .ok { ms with ops := ops + n } := by
  obtain ⟨keyCount, hkeys, h⟩ := bind_eq_ok.mp h
  split at h
  · cases h
  next hkeyCount =>
  dsimp only at h
  split at h
  · cases h
  next hops =>
  obtain ⟨sigCount, hsigs, h⟩ := bind_eq_ok.mp h
  split at h
  · cases h
  next hsigCount =>
  refine ⟨keyCount.toNat, ?_, fun branches ops hle => ?_⟩
  · split at h <;> cases h
    rfl
  · refine bind_eq_ok.mpr ⟨keyCount, hkeys, ?_⟩
    rw [if_neg hkeyCount]
    have hfew : ¬env.limits.maxOps < (m.rebase branches ops).ops + keyCount.toNat := by
      dsimp only [rebase]
      omega
    rw [if_neg hfew]
    refine bind_eq_ok.mpr ⟨sigCount, hsigs, ?_⟩
    rw [if_neg hsigCount]
    dsimp only [rebase] at h ⊢
    split at h <;> cases h
    rfl

theorem checkMultisig_ignoresBranches (env : Env) (verify : Bool) :
    IgnoresBranches fun m => (checkMultisig env verify m).result := by
  intro m m' h
  obtain ⟨ms, htake, h⟩ := Run.bind_ok.mp h
  obtain ⟨code, hcode, h⟩ := Run.bind_ok.mp h
  obtain ⟨verdict, hverdict, h⟩ := Run.bind_ok.mp h
  obtain ⟨n, hn, hrebase⟩ := Multisig.take_rebase htake
  simp only [Run.result_ite] at h
  split at h
  · cases h
  next hnull =>
  split at h
  · cases h
  next hdummy =>
  obtain ⟨hbranches, hops, hsettle⟩ := settle_rebases _ _ _ _ _ h
  dsimp only at hbranches hops
  refine ⟨hbranches, by omega, fun branches ops hle => ⟨ops + n, by omega, ?_⟩⟩
  refine Run.bind_ok.mpr ⟨_, hrebase branches ops hle, Run.bind_ok.mpr ⟨code, hcode, ?_⟩⟩
  refine Run.bind_ok.mpr ⟨verdict, hverdict, ?_⟩
  simp only [Run.result_ite]
  rw [if_neg hnull, if_neg hdummy]
  exact hsettle branches (ops + n)

/-- Outside of conditionals, what an opcode does neither depends on the branches nor changes
them, and a lower count of operations does no harm. -/
theorem act_ignoresBranches (env : Env) {here : Located}
    (hflow : Opcode.isConditional here.instruction.opcode = false) :
    IgnoresBranches fun m => (act env m here).result := by
  have hoperation := mt (Operation.isFlow_ofOpcode here.instruction.opcode)
    (Bool.not_eq_true _ ▸ hflow)
  dsimp only [act]
  cases hop : Operation.ofOpcode here.instruction.opcode with
  | openIf | switch | closeIf => simp [hop, Operation.isFlow] at hoperation
  | constant | nop | codeSeparator =>
    refine Rebases.ignoresBranches fun m m' h => ?_
    cases h
    exact ⟨rfl, rfl, fun _ _ => rfl⟩
  | earlyReturn | invalid => exact fun m m' h => by cases h
  | upgradableNop => exact (upgradableNop_rebases env _).ignoresBranches
  | lockTime => exact (lockTimeVerify_rebases env _).ignoresBranches
  | sequence => exact (sequenceVerify_rebases env _).ignoresBranches
  | toAlt => exact toAlt_rebases.ignoresBranches
  | fromAlt => exact fromAlt_rebases.ignoresBranches
  | stack | number => exact (onStack_rebases _).ignoresBranches
  | checkSig verify => exact (checkSig_rebases env verify).ignoresBranches
  | checkMultisig verify => exact checkMultisig_ignoresBranches env verify

/-- The same for an instruction that is performed or skipped, as long as the other branches
are taken exactly if these are. -/
theorem perform_rebase {env : Env} {m m' : Machine} {here : Located}
    (hflow : Opcode.isConditional here.instruction.opcode = false)
    (h : (perform env m here).result = .ok m') :
    m'.branches = m.branches ∧ m.ops ≤ m'.ops ∧
    ∀ branches ops, branches.allTaken = m.branches.allTaken → ops ≤ m.ops → ∃ ops' ≤ m'.ops,
      (perform env (m.rebase branches ops) here).result = .ok (m'.rebase branches ops') := by
  have hrebased {branches ops} (htaken : Branches.allTaken branches = m.branches.allTaken) :
      (m.rebase branches ops).executing = m.executing := htaken
  cases hexec : m.executing with
  | false =>
    rw [perform_skipped hexec hflow] at h
    cases h
    refine ⟨rfl, Nat.le_refl _, fun branches ops htaken hle => ⟨ops, hle, ?_⟩⟩
    rw [perform_skipped ((hrebased htaken).trans hexec) hflow]
    rfl
  | true =>
    cases hpush : here.instruction.isPush with
    | true =>
      simp only [perform, hexec, hpush, Bool.and_self, ↓reduceIte, Run.result_ofExcept] at h
      unfold pushData at h
      split at h
      · cases h
      next hminimal =>
      cases h
      refine ⟨rfl, Nat.le_refl _, fun branches ops htaken hle => ⟨ops, hle, ?_⟩⟩
      simp only [perform, hrebased htaken, hexec, hpush, Bool.and_self, ↓reduceIte,
        Run.result_ofExcept, pushData]
      rw [if_neg hminimal]
      rfl
    | false =>
      simp only [perform, hexec, hpush, Bool.and_false, Bool.true_or, Bool.false_eq_true,
        ↓reduceIte] at h
      obtain ⟨hbranches, hops, hact⟩ := act_ignoresBranches env hflow m m' h
      refine ⟨hbranches, hops, fun branches ops htaken hle => ?_⟩
      simp only [perform, hrebased htaken, hexec, hpush, Bool.and_false, Bool.true_or,
        Bool.false_eq_true, ↓reduceIte]
      exact hact branches ops hle

end Frame

end Machine

end CoinScript
