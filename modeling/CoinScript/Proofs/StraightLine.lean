import CoinScript.Proofs.Removal
import CoinScript.Proofs.SigOpBound
import CoinScript.Proofs.StaticValidity

/-! # Straight-line scripts

Outside of conditionals most instructions do nothing but change the stack. A script of such
instructions acts on a stack as they do one after the other, with the height checked after each.
What such a script does can therefore be computed on the stack alone.
-/
namespace CoinScript

namespace Opcode

/-- Opcodes that carry no data and are accepted everywhere. -/
def isBare (opcode : UInt8) : Bool :=
  !isPush opcode && !isDisabled opcode && opcode ≠ codeSeparator

variable {opcode : UInt8}

theorem isBare_iff : isBare opcode = true ↔
    isPush opcode = false ∧ isDisabled opcode = false ∧ opcode ≠ codeSeparator := by
  simp [isBare, and_assoc]

theorem admitted_of_isPush (h : isPush opcode = true) :
    isDisabled opcode = false ∧ opcode ≠ codeSeparator := by
  revert opcode
  exact @(forall_byte (by decide +kernel))

end Opcode

theorem Instruction.wellFormed_ofOpcode {opcode : UInt8} (h : Opcode.isPush opcode = false) :
    (ofOpcode opcode).WellFormed := by
  refine ⟨rfl, fun hdirect => ?_, fun _ hpush => ?_, fun _ => rfl⟩
  · cases h.symm.trans (isPush_of_direct hdirect)
  · cases h.symm.trans hpush

def Env.bounded (env : Env) (s : Stack) : Except Fault Stack :=
  if env.limits.maxStackSize < s.length then .error (.tallStack s.length env.limits.maxStackSize)
  else .ok s

theorem Env.bounded_eq_ok_iff {env : Env} {s t : Stack} :
    env.bounded s = .ok t ↔ s.length ≤ env.limits.maxStackSize ∧ t = s := by
  unfold bounded
  grind

/-- Changes of a stack one after the other, each within the limit on its height. -/
def Env.compose (env : Env) (fs : List (Stack → Except Fault Stack)) (s : Stack) :
    Except Fault Stack :=
  fs.foldlM (fun s f => f s >>= env.bounded) s

@[simp] theorem Env.compose_nil_eq_ok_iff {env : Env} {s t : Stack} :
    env.compose [] s = .ok t ↔ t = s := by
  simp only [compose, List.foldlM_nil, pure_eq_ok]
  exact eq_comm

theorem Env.compose_cons_eq_ok_iff {env : Env} {f : Stack → Except Fault Stack}
    {fs : List (Stack → Except Fault Stack)} {s t : Stack} :
    env.compose (f :: fs) s = .ok t ↔
      ∃ next, f s = .ok next ∧ next.length ≤ env.limits.maxStackSize ∧
        env.compose fs next = .ok t := by
  simp only [compose, List.foldlM_cons, bind_eq_ok, bounded_eq_ok_iff]
  constructor
  · rintro ⟨_, ⟨next, hnext, hheight, rfl⟩, hrest⟩
    exact ⟨_, hnext, hheight, hrest⟩
  · rintro ⟨next, hnext, hheight, hrest⟩
    exact ⟨next, ⟨next, hnext, hheight, rfl⟩, hrest⟩

namespace Machine

variable {env : Env} {m : Machine} {ins : Instruction} {inss : List Instruction}
  {f : Stack → Except Fault Stack} {fs : List (Stack → Except Fault Stack)} {opcode : UInt8}

section Instructions

/-- An instruction that is accepted within the limit of operations, and that changes the stack
by `f` and nothing else while signatures cover the whole script. -/
structure Plain (env : Env) (ins : Instruction) (f : Stack → Except Fault Stack) : Prop where
  wellFormed : ins.WellFormed
  element : ins.data.length ≤ env.limits.maxElementSize
  admitted : Opcode.isDisabled ins.opcode = false ∧ ins.opcode ≠ Opcode.codeSeparator
  acts : ∀ m rest, m.executing = true → m.code = env.script →
    (perform env m ⟨ins, rest⟩).result = onStack f m

theorem plain_push (hwell : ins.WellFormed) (hpush : ins.isPush = true)
    (helement : ins.data.length ≤ env.limits.maxElementSize)
    (hminimal : env.requireMinimal = true → ins.isMinimal = true) :
    Plain env ins fun s => .ok (s.push ins.data) := by
  refine ⟨hwell, helement, Opcode.admitted_of_isPush hpush, fun m rest hexec _ => ?_⟩
  simp only [perform, hexec, hpush, Bool.and_self, ↓reduceIte, Run.result_ofExcept]
  exact pushData_eq_ok_iff.mpr ⟨hminimal, rfl⟩

theorem plain_of_act (hbare : Opcode.isBare opcode = true)
    (hact : ∀ m rest, m.code = env.script →
      (act env m ⟨.ofOpcode opcode, rest⟩).result = onStack f m) :
    Plain env (.ofOpcode opcode) f := by
  obtain ⟨hpush, hadmitted⟩ := Opcode.isBare_iff.mp hbare
  refine ⟨Instruction.wellFormed_ofOpcode hpush, Nat.zero_le _, hadmitted,
    fun m rest hexec hcode => ?_⟩
  have hnoPush : (Instruction.ofOpcode opcode).isPush = false := hpush
  simp only [perform, hexec, hnoPush, Bool.and_false, Bool.true_or, Bool.false_eq_true, ↓reduceIte]
  exact hact m rest hcode

theorem plain_constant {n : Int} (hbare : Opcode.isBare opcode = true)
    (hop : Operation.ofOpcode opcode = .constant n) :
    Plain env (.ofOpcode opcode) fun s => .ok (s.pushNum n) := by
  refine plain_of_act hbare fun m rest _ => ?_
  simp only [act, Instruction.ofOpcode, hop]
  rfl

theorem plain_stack {op : StackOp} (hbare : Opcode.isBare opcode = true)
    (hop : Operation.ofOpcode opcode = .stack op) :
    Plain env (.ofOpcode opcode) (op.run env.digests) := by
  refine plain_of_act hbare fun m rest _ => ?_
  simp only [act, Instruction.ofOpcode, hop]
  rfl

/-- What a signature operation does to the stack while signatures cover the whole script. -/
def checkSigOn (env : Env) (verify : Bool) (s : Stack) : Except Fault Stack := do
  return (← (checkSig env verify { stack := s, code := env.script }).result).stack

theorem plain_checkSig {verify : Bool} (hbare : Opcode.isBare opcode = true)
    (hop : Operation.ofOpcode opcode = .checkSig verify) :
    Plain env (.ofOpcode opcode) (checkSigOn env verify) := by
  refine plain_of_act hbare fun m rest hcode => ?_
  have hact : act env m ⟨.ofOpcode opcode, rest⟩ = checkSig env verify m := by
    simp only [act, Instruction.ofOpcode, hop]
  rw [hact]
  simp only [onStack, checkSigOn, checkSig, hcode]
  rcases m.stack with _ | ⟨key, _ | ⟨sig, below⟩⟩
  · rfl
  · rfl
  · simp only [Run.result_bind, Run.result_ite, Run.result_ofExcept, Run.result_fail]
    cases env.removeSignature env.script sig with
    | error => rfl
    | ok code =>
      cases hverdict : (env.checkSig sig key code).result with
      | error => simp only [bind, Except.bind, hverdict]
      | ok verdict =>
        simp only [bind, Except.bind, hverdict]
        split
        · rfl
        · cases verify <;> cases verdict <;> rfl

end Instructions

section Scripts

theorem step_plain (h : Plain env ins f) (hexec : m.executing = true) (hcode : m.code = env.script)
    (halt : m.alt = []) (hops : Opcode.isCounted ins.opcode = true → m.ops + 1 ≤ env.limits.maxOps)
    (rest : Script) : (step env m ⟨ins, rest⟩).result =
      (f m.stack >>= env.bounded) >>= fun s => .ok { m.count ins with stack := s } := by
  have haccepts : Accepts env m.executing m.ops ins := by
    refine ⟨h.wellFormed.whole, h.element, hops, fun hdisabled => ?_, fun hseparator => ?_⟩
    · rw [h.admitted.1] at hdisabled
      cases hdisabled
    · exact absurd hseparator h.admitted.2
  have haccept := accept_eq_ok_iff.mpr ⟨haccepts, rfl⟩
  have hperform := h.acts (m.count ins) rest hexec hcode
  have hheight (s : Stack) : checkHeight env { m.count ins with stack := s } =
      env.bounded s >>= fun s => .ok { m.count ins with stack := s } := by
    have hempty : (m.count ins).alt.length = 0 := by
      rw [count, halt]
      rfl
    simp only [checkHeight, hempty, Nat.add_zero, Env.bounded]
    split <;> rfl
  simp only [step, Run.result_bind, Run.result_emit, Run.result_ofExcept]
  simp only [haccept, bind, Except.bind]
  rw [hperform]
  change (onStack f (m.count ins) >>= checkHeight env) = _
  unfold onStack
  change ((f m.stack >>= _) >>= _) = _
  cases f m.stack with
  | error => rfl
  | ok s => exact hheight s

theorem steps_plain (h : List.Forall₂ (Plain env) inss fs) (hexec : m.executing = true)
    (hcode : m.code = env.script) (halt : m.alt = [])
    (hops : m.ops + inss.countP (Opcode.isCounted ·.opcode) ≤ env.limits.maxOps) :
    ((Script.ofInstructions inss).located.foldlM (step env) m).result =
      env.compose fs m.stack >>= fun s =>
        .ok { m with stack := s, ops := m.ops + inss.countP (Opcode.isCounted ·.opcode) } := by
  induction h generalizing m with
  | nil => simp [Script.ofInstructions, Script.located, Env.compose]
  | @cons ins f inss fs hfirst hrest ih =>
    have hcount : (m.count ins).ops + inss.countP (Opcode.isCounted ·.opcode) =
        m.ops + (ins :: inss).countP (Opcode.isCounted ·.opcode) := by
      rw [List.countP_cons]
      dsimp only [count]
      split <;> omega
    rw [Script.ofInstructions_cons, Script.located_of_wellFormed hfirst.wellFormed,
      List.foldlM_cons, Run.result_bind, step_plain hfirst hexec hcode halt]
    · rw [← hcount] at hops ⊢
      unfold Env.compose
      rw [List.foldlM_cons]
      cases hs : f m.stack >>= env.bounded with
      | error => rfl
      | ok s =>
        exact ih (m := { m.count ins with stack := s }) hexec hcode halt hops
    · intro hcounted
      rw [List.countP_cons, if_pos hcounted] at hops
      omega

theorem execute_plain (h : List.Forall₂ (Plain env) inss fs)
    (hscript : env.script = Script.ofInstructions inss)
    (hsize : env.script.length ≤ env.limits.maxScriptSize)
    (hops : inss.countP (Opcode.isCounted ·.opcode) ≤ env.limits.maxOps) (s : Stack) :
    (env.execute s).result = env.compose fs s := by
  have hsteps := steps_plain (m := start env s) h rfl rfl rfl (by simpa [start] using hops)
  rw [Env.execute, Run.result_bind, run_of_size hsize]
  nth_rewrite 1 [hscript]
  rw [hsteps]
  cases hs : env.compose fs s with
  | error => simp [start, hs, bind, Except.bind]
  | ok t => simp [start, hs, bind, Except.bind]

end Scripts

end Machine

end CoinScript
