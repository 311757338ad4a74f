import CoinScript.Proofs.Trace

/-! # Static and actual signature checks

The signature operations of a script are counted without executing it: one for a single check,
and for a multisignature the small integer that stands before it, or twenty. A run never checks
more signatures than that, wherever it ends, because a small integer right before an executed
multisignature has been executed too and is the number of its keys. Nor does it check more than
it may count operations.
-/
namespace CoinScript

def Event.isCheck : Event → Bool
  | .check .. => true
  | _ => false

/-- The signatures that a run checks before it ends or fails. -/
def Run.checks {α : Type} (run : Run α) : Nat := run.events.countP Event.isCheck

theorem Run.checks_bind {α β : Type} (run : Run α) (next : α → Run β) :
    (run >>= next).checks = run.checks + match run.result with
      | .ok a => (next a).checks
      | .error _ => 0 := by
  unfold checks
  rw [events_bind, List.countP_append]
  cases run.result <;> rfl

section SmallIntegers

open Opcode

theorem Opcode.forall_smallInt {P : UInt8 → Prop} (h : ∀ n : Fin 16, P (one + UInt8.ofNat n))
    {opcode : UInt8} (hone : one ≤ opcode) (hsixteen : opcode ≤ sixteen) : P opcode := by
  have hlow : 0x51 ≤ opcode.toNat := hone
  have hhigh : opcode.toNat ≤ 0x60 := hsixteen
  have hsum : one + UInt8.ofNat (opcode.toNat - 0x51) = opcode := by
    apply UInt8.toNat_inj.mp
    rw [UInt8.toNat_add, UInt8.toNat_ofNat']
    change (0x51 + (opcode.toNat - 0x51) % 256) % 256 = opcode.toNat
    omega
  exact hsum ▸ h ⟨opcode.toNat - 0x51, by omega⟩

variable {opcode : UInt8}

def Opcode.smallValue (opcode : UInt8) : Nat := (opcode - one + 1).toNat

theorem Opcode.smallValue_le (hone : one ≤ opcode) (hsixteen : opcode ≤ sixteen) :
    smallValue opcode ≤ 16 :=
  forall_smallInt (P := fun opcode => smallValue opcode ≤ 16) (by decide) hone hsixteen

theorem Operation.ofOpcode_smallInt (hone : one ≤ opcode) (hsixteen : opcode ≤ sixteen) :
    ofOpcode opcode = .constant (smallValue opcode) :=
  forall_smallInt (P := fun opcode => ofOpcode opcode = .constant (smallValue opcode)) (by decide)
    hone hsixteen

theorem Machine.keyCount_pushNum {n : Nat} (hn : n ≤ 16) (s : Stack) :
    keyCount (s.pushNum n) = n := by
  have hall : ∀ i : Fin 17, (Number.clamp32 (Number.decode (Number.encode i))).toNat = i := by
    decide +kernel
  exact hall ⟨n, by omega⟩

end SmallIntegers

namespace Script

/-- The signature operations that an opcode after the opcode `last` is counted as. -/
def sigOpsAt (accurate : Bool) (last opcode : UInt8) : Nat :=
  match Opcode.kind opcode with
  | .checkSig => 1
  | .checkMultisig =>
    if accurate ∧ Opcode.one ≤ last ∧ last ≤ Opcode.sixteen then Opcode.smallValue last else 20
  | _ => 0

theorem sigOpsAfter_cons {ins : Instruction} (h : ins.cut = false) (accurate : Bool) (last : UInt8)
    (inss : List Instruction) : sigOpsAfter accurate last (ins :: inss) =
      sigOpsAt accurate last ins.opcode + sigOpsAfter accurate ins.opcode inss := by
  have hsingle : ¬(Opcode.codeSeparator = Opcode.checkSig ∨
      Opcode.codeSeparator = Opcode.checkSigVerify) := by decide
  have hmulti : ¬(Opcode.codeSeparator = Opcode.checkMultisig ∨
      Opcode.codeSeparator = Opcode.checkMultisigVerify) := by decide
  rw [sigOpsAfter]
  simp only [h, Bool.false_eq_true, ↓reduceIte, Nat.add_right_cancel_iff]
  unfold sigOpsAt Opcode.kind
  grind [Opcode.smallValue]

theorem sigOpsAt_accurate_le (last opcode : UInt8) :
    sigOpsAt true last opcode ≤ sigOpsAt false last opcode := by
  unfold sigOpsAt
  split
  · exact Nat.le_refl _
  · simp only [true_and, Bool.false_eq_true, false_and, ↓reduceIte]
    split
    · next hsmall =>
      have hle := Opcode.smallValue_le hsmall.1 hsmall.2
      omega
    · exact Nat.le_refl _
  · exact Nat.le_refl _

theorem sigOpsAfter_accurate_le (last : UInt8) (inss : List Instruction) :
    sigOpsAfter true last inss ≤ sigOpsAfter false last inss := by
  induction inss generalizing last with
  | nil => exact Nat.le_refl _
  | cons ins inss ih =>
    cases hcut : ins.cut with
    | true => simp [sigOpsAfter, hcut]
    | false =>
      rw [sigOpsAfter_cons hcut, sigOpsAfter_cons hcut]
      exact Nat.add_le_add (sigOpsAt_accurate_le last ins.opcode) (ih ins.opcode)

end Script

open Script

namespace Machine

variable {env : Env} {m m' : Machine} {here : Located} {last : UInt8} {xs : List Located}

/-- If the last opcode was a small integer and this place is executed, that integer is on top of
the stack. -/
def Announces (last : UInt8) (m : Machine) : Prop :=
  Opcode.one ≤ last → last ≤ Opcode.sixteen → m.executing = true →
    keyCount m.stack = Opcode.smallValue last

theorem step_announces (h : (step env m here).result = .ok m') : Announces here.opcode m' := by
  intro hone hsixteen hexec
  obtain ⟨-, hperform, -⟩ := step_ok_iff.mp h
  have hop : Operation.ofOpcode here.instruction.opcode =
      .constant (Opcode.smallValue here.opcode) := Operation.ofOpcode_smallInt hone hsixteen
  rcases perform_cases hperform with ⟨-, hpush, -⟩ | ⟨-, hact⟩ | ⟨hskipped, rfl⟩
  · have hbound : here.opcode ≤ Opcode.pushData4 := of_decide_eq_true hpush
    have hnot : ¬Opcode.one ≤ Opcode.pushData4 := by decide
    exact absurd (UInt8.le_trans hone hbound) hnot
  · simp only [act, hop] at hact
    cases hact
    exact keyCount_pushNum (Opcode.smallValue_le hone hsixteen) _
  · rw [hskipped] at hexec
    cases hexec

theorem step_checks_le_keys (env : Env) (m : Machine) (here : Located) :
    (step env m here).checks = 0 ∨ here.instruction.cut = false ∧
      ∃ sigs keys code events, ChecksAt env m here sigs keys code events ∧
        (step env m here).checks ≤ keys.length := by
  obtain ⟨checks, hevents, hchecks⟩ := step_checks env m here
  have hcount : (step env m here).checks = checks.countP Event.isCheck := by
    rw [Run.checks, hevents]
    rfl
  rw [hcount]
  rcases hchecks with rfl | ⟨hwhole, sigs, keys, code, hchecks⟩
  · exact .inl rfl
  · refine .inr ⟨hwhole, sigs, keys, code, checks, hchecks, ?_⟩
    exact Nat.le_trans List.countP_le_length hchecks.checks.length_le

section StaticCount

theorem step_checks_le_sigOps (hkeys : env.limits.maxKeysPerMultisig ≤ 20)
    (hlast : Announces last m) :
    (step env m here).checks ≤ sigOpsAt true last here.opcode := by
  rcases step_checks_le_keys env m here with hnone | ⟨-, sigs, keys, code, _, hchecks, hle⟩
  · omega
  refine Nat.le_trans hle ?_
  have hkind := hchecks.operands.kind
  rw [Operation.kind_ofOpcode] at hkind
  unfold sigOpsAt
  rcases hkind with ⟨hkind, hone⟩ | ⟨hkind, hcount, hmax⟩
  · simp only [hkind]
    omega
  · simp only [hkind, true_and]
    split
    · next hsmall =>
      rw [hcount, hlast hsmall.1 hsmall.2 hchecks.executing]
    · omega

theorem steps_checks_le_sigOps (hkeys : env.limits.maxKeysPerMultisig ≤ 20)
    (hlast : Announces last m) :
    (xs.foldlM (step env) m).checks ≤ sigOpsAfter true last (xs.map (·.instruction)) := by
  induction xs generalizing m last with
  | nil => exact Nat.zero_le _
  | cons here xs ih =>
    rw [List.foldlM_cons, Run.checks_bind, List.map_cons]
    cases hcut : here.instruction.cut with
    | true =>
      -- A push that is cut is refused, and nothing after it is looked at.
      have hchecks : (step env m here).checks = 0 := by
        refine (step_checks_le_keys env m here).resolve_right ?_
        rintro ⟨hwhole, -⟩
        simp [hcut] at hwhole
      cases hresult : (step env m here).result with
      | error fault => simp [hchecks]
      | ok next =>
        have hwhole := (step_ok_iff.mp hresult).1.whole
        simp [hcut] at hwhole
    | false =>
      have hhere : (step env m here).checks ≤ sigOpsAt true last here.opcode :=
        step_checks_le_sigOps hkeys hlast
      rw [sigOpsAfter_cons hcut]
      change _ ≤ sigOpsAt true last here.opcode + _
      cases hresult : (step env m here).result with
      | error fault =>
        dsimp only
        omega
      | ok next =>
        have hrest := ih (step_announces hresult)
        dsimp only
        exact Nat.add_le_add hhere hrest

end StaticCount

section Operations

/-- Every check is paid for by an operation that the machine counts. -/
theorem steps_checks_le_ops (h : m.ops ≤ env.limits.maxOps) :
    m.ops + (xs.foldlM (step env) m).checks ≤ env.limits.maxOps := by
  induction xs generalizing m with
  | nil => exact h
  | cons here xs ih =>
    rw [List.foldlM_cons, Run.checks_bind]
    have hhere := step_checks_le_keys env m here
    cases hresult : (step env m here).result with
    | error fault =>
      dsimp only
      rcases hhere with hnone | ⟨-, _, _, _, _, hchecks, hle⟩
      · omega
      · have hbudget := hchecks.budget
        omega
    | ok next =>
      obtain ⟨-, hops, hlimit⟩ := step_books hresult
      have hpaid : m.ops + (step env m here).checks ≤ next.ops := by
        rcases hhere with hnone | ⟨-, sigs, keys, _, _, hchecks, hle⟩
        · omega
        have hkind := hchecks.operands.kind
        rw [Operation.kind_ofOpcode] at hkind
        rcases hkind with ⟨hkind, hone⟩ | ⟨hkind, hcount, -⟩
        · have hother : Opcode.kind here.opcode ≠ .other := by
            rw [hkind]
            nofun
          rw [Opcode.isCounted_of_kind hother] at hops
          simp only [Bool.toNat_true] at hops
          omega
        · have hcharged : m.keysCharged here = keyCount m.stack :=
            if_pos ⟨hchecks.executing, hkind⟩
          omega
      have hrest := ih (hlimit h)
      dsimp only
      omega

end Operations

/-- A run, whether it succeeds or fails, checks no more signatures than its script is counted as
having, nor more than the limit of operations; and the accurate count is at most the other. -/
theorem execute_checks_le_sigOps (env : Env) (stack : Stack)
    (hkeys : env.limits.maxKeysPerMultisig ≤ 20) :
    (env.execute stack).checks ≤ env.script.sigOps true ∧
    (env.execute stack).checks ≤ env.limits.maxOps ∧
    env.script.sigOps true ≤ env.script.sigOps false := by
  have hcount : (env.execute stack).checks ≤
      (env.script.located.foldlM (step env) (start env stack)).checks := by
    unfold Run.checks
    rcases execute_events env stack with h | h
    · simp [h]
    · rw [h]
  refine ⟨Nat.le_trans hcount ?_, Nat.le_trans hcount ?_, sigOpsAfter_accurate_le _ _⟩
  · apply steps_checks_le_sigOps hkeys
    intro _ hsixteen
    exact absurd hsixteen (by decide)
  · have hstart : (start env stack).ops ≤ env.limits.maxOps := Nat.zero_le _
    have hops : (start env stack).ops +
        (env.script.located.foldlM (step env) (start env stack)).checks ≤ env.limits.maxOps :=
      steps_checks_le_ops hstart
    simpa [start] using hops

/-- One signature and two keys, neither of which it checks against: the run fails after it has
made all the checks that were counted. -/
theorem execute_checks_le_sigOps_one_of_two :
    let env : Env :=
      { flags := Flags.empty,
        script := [0x00, 0x01, 0x07, 0x51, 0x01, 0x02, 0x01, 0x03, 0x52, 0xaf] }
    (∀ final, (env.execute []).result ≠ .ok final) ∧ (env.execute []).checks = 2 ∧
      env.limits.maxKeysPerMultisig ≤ 20 ∧ (env.execute []).checks ≤ env.script.sigOps true ∧
      env.script.sigOps true = 2 ∧ env.script.sigOps false = 20 := by
  intro env
  have hfails : (env.execute []).result.isOk = false := by decide +kernel
  have hchecks : (env.execute []).checks = 2 := by decide +kernel
  have hkeys : env.limits.maxKeysPerMultisig ≤ 20 := by decide
  refine ⟨?_, hchecks, hkeys, (execute_checks_le_sigOps env [] hkeys).1, ?_, ?_⟩
  · intro final hok
    rw [hok] at hfails
    cases hfails
  · decide +kernel
  · decide +kernel

end Machine

end CoinScript
