import CoinScript.Proofs.LockTimes
import CoinScript.Proofs.Rearrangement

/-! # Missing operands

An opcode that works on a fixed number of items fails where there are fewer. Most opcodes look at
the height of the stack, or take their items off it, before anything else, and so report that items
are missing. Numeric opcodes read each operand as soon as it is taken: an operand that is no number
is reported for itself, also where the next one is missing.
-/
namespace CoinScript

namespace Opcode

/-- How many items an opcode of fixed arity works on; zero for the others. -/
def arity (opcode : UInt8) : Nat :=
  match opcode.toNat with
  -- `VERIFY`, `TOALTSTACK`, `IFDUP`, `DROP`, `DUP`, `SIZE`
  | 0x69 | 0x6b | 0x73 | 0x75 | 0x76 | 0x82 => 1
  -- numbers: one operand
  | 0x8b | 0x8c | 0x8f | 0x90 | 0x91 | 0x92 => 1
  -- digests
  | 0xa6 | 0xa7 | 0xa8 | 0xa9 | 0xaa => 1
  -- lock times
  | 0xb1 | 0xb2 => 1
  -- `2DROP`, `2DUP`, `NIP`, `OVER`, `PICK`, `ROLL`, `SWAP`, `TUCK`
  | 0x6d | 0x6e | 0x77 | 0x78 | 0x79 | 0x7a | 0x7c | 0x7d => 2
  -- `EQUAL`, `EQUALVERIFY`, `CHECKSIG`, `CHECKSIGVERIFY`
  | 0x87 | 0x88 | 0xac | 0xad => 2
  -- numbers: two operands
  | 0x93 | 0x94 | 0x9a | 0x9b | 0x9c | 0x9d | 0x9e | 0x9f | 0xa0 | 0xa1 | 0xa2 | 0xa3 | 0xa4 => 2
  -- `3DUP`, `ROT`, `WITHIN`
  | 0x6f | 0x7b | 0xa5 => 3
  -- `2OVER`, `2SWAP`
  | 0x70 | 0x72 => 4
  -- `2ROT`
  | 0x71 => 6
  | _ => 0

/-- The opcodes that read an operand as a number before they look for the next item: `PICK` and
`ROLL` and those that compute with numbers. -/
def readsNumbers (opcode : UInt8) : Bool :=
  opcode = 0x79 || opcode = 0x7a || (0x8b ≤ opcode && opcode ≤ 0xa5)

/-- The opcodes for lock times work on an item only while their rules are in force. -/
structure InForce (flags : Flags) (opcode : UInt8) : Prop where
  lockTime : opcode = lockTimeVerify → flags.has .checkLockTimeVerify = true
  sequence : opcode = sequenceVerify → flags.has .checkSequenceVerify = true

end Opcode

namespace StackOp

def arity : StackOp → Nat
  | verify | drop | ifDup | size | hash _ => 1
  | dropPair | nip | tuck | equal | equalVerify => 2
  | dup n => n
  | copyOver n | swap n => 2 * n
  | rot n => 3 * n
  | depth => 0

end StackOp

namespace NumberOp

def arity : NumberOp → Nat
  | unary _ | unaryTest _ => 1
  | binary _ | binaryTest _ | equalVerify | pick | roll => 2
  | within => 3

end NumberOp

namespace Operation

def arity : Operation → Nat
  | lockTime | sequence | toAlt => 1
  | stack op => op.arity
  | number op => op.arity
  | checkSig _ => 2
  | _ => 0

def readsNumbers : Operation → Bool
  | number _ => true
  | _ => false

theorem ofOpcode_operands (opcode : UInt8) :
    (ofOpcode opcode).arity = Opcode.arity opcode ∧
    (0 < Opcode.arity opcode → (ofOpcode opcode).readsNumbers = Opcode.readsNumbers opcode) ∧
    (ofOpcode opcode = .lockTime → opcode = Opcode.lockTimeVerify) ∧
    (ofOpcode opcode = .sequence → opcode = Opcode.sequenceVerify) := by
  revert opcode
  exact Opcode.forall_byte (by decide +kernel)

end Operation

section Underflow

def Underflows {α : Type} (result : Except Fault α) : Prop :=
  ∃ fault, result = .error fault ∧ fault.code = .underflow

variable {α β : Type} {s : Stack}

theorem Underflows.bind {x : Except Fault α} (h : Underflows x) (f : α → Except Fault β) :
    Underflows (x >>= f) := by
  obtain ⟨fault, rfl, hcode⟩ := h
  exact ⟨fault, rfl, hcode⟩

theorem Stack.Move.underflows (move : Stack.Move) (h : s.length < move.need) :
    Underflows (move.run s) := by
  have hitems : s.items.length < move.need := by
    rw [Stack.items, List.length_reverse]
    exact h
  obtain ⟨fault, hcode, hrun, -⟩ := Stack.Move.refused hitems
  rw [Stack.ofItems_items] at hrun
  exact ⟨fault, hrun, hcode⟩

theorem Stack.pop_underflows : Underflows (Stack.pop []) := ⟨.emptyPop, rfl, rfl⟩

theorem Stack.peek_underflows : Underflows (Stack.peek [] (-1)) := ⟨.badIndex (-1) 0, rfl, rfl⟩

theorem StackOp.popEqual_underflows (h : s.length < 2) : Underflows (popEqual s) := by
  match s, h with
  | [], _ => exact Stack.pop_underflows.bind _
  | [_], _ => exact ⟨.emptyPop, rfl, rfl⟩

theorem StackOp.run_underflows {digests : Digests} {op : StackOp} (h : s.length < op.arity) :
    Underflows (op.run digests s) := by
  cases op with
  | depth => exact absurd h (Nat.not_lt_zero _)
  | dup n => exact Stack.Move.underflows (.dup n) h
  | copyOver n => exact Stack.Move.underflows (.copyOver n) h
  | rot n => exact Stack.Move.underflows (.rot n) h
  | swap n => exact Stack.Move.underflows (.swap n) h
  | nip => exact Stack.Move.underflows .nip h
  | tuck => exact Stack.Move.underflows .tuck h
  | equal | equalVerify => exact (popEqual_underflows h).bind _
  | dropPair =>
    match s, h with
    | [], _ => exact ⟨.shortDropPair, rfl, rfl⟩
    | [_], _ => exact ⟨.shortDropPair, rfl, rfl⟩
  | verify =>
    obtain rfl := List.length_eq_zero_iff.mp (Nat.lt_one_iff.mp h)
    exact (Stack.peek_underflows.bind _).bind _
  | ifDup | size =>
    obtain rfl := List.length_eq_zero_iff.mp (Nat.lt_one_iff.mp h)
    exact Stack.peek_underflows.bind _
  | drop | hash =>
    obtain rfl := List.length_eq_zero_iff.mp (Nat.lt_one_iff.mp h)
    exact Stack.pop_underflows.bind _

end Underflow

section Numbers

def Number.Readable (format : Number.Format) (item : Bytes) : Prop :=
  ∃ n, Number.read format item = .ok n

/-- The fault of the first item, from the top, that is not accepted as an operand. -/
inductive Stack.Unreadable (format : Number.Format) : Stack → Fault → Prop
  | top {item rest fault} : Number.read format item = .error fault →
    Unreadable format (item :: rest) fault
  | deeper {item rest fault} : Number.Readable format item → Unreadable format rest fault →
    Unreadable format (item :: rest) fault

/-- Operands are missing. What is reported is the first that is there and cannot be read, or that
they are missing if all can. -/
def Stack.Lacking {α : Type} (format : Number.Format) (s : Stack) (result : Except Fault α) :
    Prop :=
  ∃ fault, result = .error fault ∧ (s.Unreadable format fault ∨
    fault.code = .underflow ∧ ∀ item ∈ s, Number.Readable format item)

variable {α : Type} {format : Number.Format} {s : Stack} {fault : Fault}

theorem Number.code_of_read {item : Bytes} (h : Number.read format item = .error fault) :
    fault.code = .scriptNumError := by
  unfold Number.read at h
  split at h
  · cases h
    rfl
  · split at h
    · cases h
      rfl
    · cases h

theorem Stack.Unreadable.code (h : s.Unreadable format fault) : fault.code = .scriptNumError := by
  induction h with
  | top hread => exact Number.code_of_read hread
  | deeper _ _ ih => exact ih

theorem Stack.Unreadable.exists_item (h : s.Unreadable format fault) :
    ∃ item ∈ s, ¬Number.Readable format item := by
  induction h with
  | @top item rest fault hread =>
    refine ⟨item, List.mem_cons_self, ?_⟩
    rintro ⟨n, hn⟩
    cases hread.symm.trans hn
  | deeper _ _ ih =>
    obtain ⟨item, hitem, hunreadable⟩ := ih
    exact ⟨item, List.mem_cons_of_mem _ hitem, hunreadable⟩

/-- The fault of an opcode that lacks operands. It is underflow, unless the opcode reads numbers and
an item that is there is none; then it is the fault of the first of these from the top. -/
structure OperandFault (format : Number.Format) (opcode : UInt8) (s : Stack) (fault : Fault) :
    Prop where
  underflow_iff : fault.code = .underflow ↔
    ¬(Opcode.readsNumbers opcode = true ∧ ∃ item ∈ s, ¬Number.Readable format item)
  unreadable : fault.code ≠ .underflow →
    s.Unreadable format fault ∧ fault.code = .scriptNumError

theorem OperandFault.of_underflow {opcode : UInt8} (h : fault.code = .underflow)
    (hreadable : Opcode.readsNumbers opcode = true → ∀ item ∈ s, Number.Readable format item) :
    OperandFault format opcode s fault := by
  refine ⟨iff_of_true h ?_, fun hother => absurd h hother⟩
  rintro ⟨hreads, item, hitem, hunreadable⟩
  exact hunreadable (hreadable hreads item hitem)

theorem OperandFault.of_unreadable {opcode : UInt8} (hreads : Opcode.readsNumbers opcode = true)
    (h : s.Unreadable format fault) : OperandFault format opcode s fault := by
  have hcode := h.code
  refine ⟨iff_of_false ?_ (not_not.mpr ⟨hreads, h.exists_item⟩), fun _ => ⟨h, hcode⟩⟩
  rw [hcode]
  decide

theorem Stack.Lacking.bind {β : Type} {x : Except Fault α} (h : Stack.Lacking format s x)
    (f : α → Except Fault β) : Stack.Lacking format s (x >>= f) := by
  obtain ⟨fault, rfl, hreason⟩ := h
  exact ⟨fault, rfl, hreason⟩

theorem Underflows.lacking {result : Except Fault α} (h : Underflows result) :
    Stack.Lacking format [] result := by
  obtain ⟨fault, hfault, hcode⟩ := h
  exact ⟨fault, hfault, .inr ⟨hcode, nofun⟩⟩

theorem Stack.Lacking.takeNum {f : Int × Stack → Except Fault α}
    (h : ∀ item rest, s = item :: rest → ∀ n, Stack.Lacking format rest (f (n, rest))) :
    Stack.Lacking format s (s.takeNum format >>= f) := by
  cases s with
  | nil => exact Underflows.lacking ⟨.emptyPop, rfl, rfl⟩
  | cons item rest =>
    cases hread : Number.read format item with
    | error fault =>
      refine ⟨fault, ?_, .inl (.top hread)⟩
      simp only [takeNum, popNum, hread]
      rfl
    | ok n =>
      obtain ⟨fault, hfault, hreason⟩ := h item rest rfl n
      refine ⟨fault, ?_, ?_⟩
      · simp only [takeNum, popNum, hread]
        exact hfault
      · rcases hreason with hunreadable | ⟨hcode, hall⟩
        · exact .inl (.deeper ⟨n, hread⟩ hunreadable)
        · exact .inr ⟨hcode, List.forall_mem_cons.mpr ⟨⟨n, hread⟩, hall⟩⟩

theorem Stack.takeNum_lacking (h : s = []) (f : Int × Stack → Except Fault α) :
    Stack.Lacking format s (s.takeNum format >>= f) := by
  refine .takeNum fun item rest hs => ?_
  cases h.symm.trans hs

theorem Stack.takeDepth_lacking (h : s.length < 2) (f : Nat × Stack → Except Fault α) :
    Stack.Lacking format s (s.takeDepth format >>= f) := by
  have hdepth : s.takeDepth format >>= f = s.takeNum format >>= fun taken =>
      (if Number.clamp32 taken.1 < 0 ∨ taken.2.length ≤ Number.clamp32 taken.1 then
        .error (.badDepth (Number.clamp32 taken.1) taken.2.length)
        else .ok ((Number.clamp32 taken.1).toNat, taken.2)) >>= f := by
    rw [← bind_assoc]
    rfl
  rw [hdepth]
  refine .takeNum fun item rest hs n => ?_
  have hrest : rest = [] := by
    rw [hs, List.length_cons] at h
    exact List.length_eq_zero_iff.mp (by omega)
  subst hrest
  apply Underflows.lacking
  apply Underflows.bind
  have hnone : Number.clamp32 n < 0 ∨ ((([] : Stack).length : Nat) : Int) ≤ Number.clamp32 n := by
    rw [List.length_nil]
    omega
  rw [if_pos hnone]
  exact ⟨_, rfl, rfl⟩

theorem NumberOp.run_lacking {op : NumberOp} (h : s.length < op.arity) :
    Stack.Lacking format s (op.run format s) := by
  have hrest {k : Nat} {t : Stack} (ht : t.length < k + 1) (item : Bytes) (rest : Stack)
      (hs : t = item :: rest) : rest.length < k := by
    rw [hs, List.length_cons] at ht
    omega
  have hempty {t : Stack} (ht : t.length < 1) : t = [] :=
    List.length_eq_zero_iff.mp (Nat.lt_one_iff.mp ht)
  cases op with
  | unary | unaryTest => exact Stack.takeNum_lacking (hempty h) _
  | binary | binaryTest | equalVerify =>
    refine .takeNum fun item rest hs n => ?_
    exact Stack.takeNum_lacking (hempty (hrest h item rest hs)) _
  | within =>
    refine .takeNum fun upper below hs _ => .takeNum fun lower rest hbelow _ => ?_
    exact Stack.takeNum_lacking (hempty (hrest (hrest h upper below hs) lower rest hbelow)) _
  | pick | roll => exact Stack.takeDepth_lacking h _

end Numbers

namespace Machine

variable {env : Env} {m : Machine} {here : Located} {fault : Fault} {s : Stack}

section Acts

theorem lockOperand_underflows (h : m.stack = []) : Underflows (lockOperand env m) := by
  unfold lockOperand Stack.getNum
  rw [h]
  exact (Stack.peek_underflows.bind _).bind _

theorem lockTimeVerify_underflows {opcode : UInt8}
    (hrule : env.flags.has .checkLockTimeVerify = true) (h : m.stack = []) :
    Underflows (lockTimeVerify env opcode m) := by
  unfold lockTimeVerify
  rw [if_pos hrule]
  exact (lockOperand_underflows h).bind _

theorem sequenceVerify_underflows {opcode : UInt8}
    (hrule : env.flags.has .checkSequenceVerify = true) (h : m.stack = []) :
    Underflows (sequenceVerify env opcode m) := by
  unfold sequenceVerify
  rw [if_pos hrule]
  exact (lockOperand_underflows h).bind _

theorem checkSig_underflows {verify : Bool} (h : m.stack.length < 2) :
    Underflows (checkSig env verify m).result := by
  unfold checkSig
  match m.stack, h with
  | [], _ => exact ⟨.shortCheckSig, rfl, rfl⟩
  | [_], _ => exact ⟨.shortCheckSig, rfl, rfl⟩

/-- An opcode that reads numbers comes upon the first that is none; any other finds items
missing. -/
theorem act_lacking (hforce : Opcode.InForce env.flags here.opcode)
    (hshort : m.stack.length < Opcode.arity here.opcode) :
    if Opcode.readsNumbers here.opcode then
      Stack.Lacking env.numberFormat m.stack (act env m here).result
    else Underflows (act env m here).result := by
  obtain ⟨harity, hreads, hlockTime, hsequence⟩ := Operation.ofOpcode_operands here.opcode
  rw [← hreads (Nat.zero_lt_of_lt hshort)]
  rw [← harity] at hshort
  have hempty (h : m.stack.length < 1) : m.stack = [] :=
    List.length_eq_zero_iff.mp (Nat.lt_one_iff.mp h)
  unfold act
  dsimp only
  change if (Operation.ofOpcode here.instruction.opcode).readsNumbers = true then _ else _
  change m.stack.length < (Operation.ofOpcode here.instruction.opcode).arity at hshort
  cases hop : Operation.ofOpcode here.instruction.opcode with
  | number op =>
    rw [hop] at hshort
    exact (NumberOp.run_lacking hshort).bind _
  | stack op =>
    rw [hop] at hshort
    exact (StackOp.run_underflows hshort).bind _
  | toAlt =>
    rw [hop] at hshort
    refine Underflows.bind ?_ _
    rw [hempty hshort]
    exact Stack.pop_underflows
  | lockTime =>
    rw [hop] at hshort
    exact lockTimeVerify_underflows (hforce.lockTime (hlockTime hop)) (hempty hshort)
  | sequence =>
    rw [hop] at hshort
    exact sequenceVerify_underflows (hforce.sequence (hsequence hop)) (hempty hshort)
  | checkSig verify =>
    rw [hop] at hshort
    exact checkSig_underflows hshort
  | _ =>
    rw [hop] at hshort
    exact absurd hshort (Nat.not_lt_zero _)

theorem act_short (hforce : Opcode.InForce env.flags here.opcode)
    (hshort : m.stack.length < Opcode.arity here.opcode) :
    ∃ fault, OperandFault env.numberFormat here.opcode m.stack fault ∧
      (act env m here).result = .error fault := by
  have hact := act_lacking hforce hshort
  split at hact
  · next hreads =>
    obtain ⟨fault, hfault, hunreadable | ⟨hcode, hall⟩⟩ := hact
    · exact ⟨fault, .of_unreadable hreads hunreadable, hfault⟩
    · exact ⟨fault, .of_underflow hcode fun _ => hall, hfault⟩
  · next hreads =>
    obtain ⟨fault, hfault, hcode⟩ := hact
    exact ⟨fault, .of_underflow hcode fun h => absurd h hreads, hfault⟩

end Acts

section Runs

theorem perform_eq_act_of_arity (h : 0 < Opcode.arity here.opcode) (hexec : m.executing = true) :
    perform env m here = act env m here := by
  have hall : ∀ opcode, 0 < Opcode.arity opcode →
      Opcode.isPush opcode = false ∧ Opcode.isConditional opcode = false :=
    Opcode.forall_byte (by decide +kernel)
  obtain ⟨hpush, hflow⟩ := hall here.opcode h
  rw [perform_eq_act hpush hflow, if_pos hexec]

theorem step_of_perform_error (haccepts : Accepts env m.executing m.ops here.instruction)
    (h : (perform env (m.count here.instruction) here).result = .error fault) :
    (step env m here).result = .error fault := by
  have hcount : accept env m here.instruction = .ok (m.count here.instruction) :=
    accept_eq_ok_iff.mpr ⟨haccepts, rfl⟩
  simp only [step, Run.bind_error, Run.result_emit, Run.result_ofExcept, hcount, reduceCtorEq,
    Except.ok.injEq, exists_eq_left', exists_const, true_and, false_or]
  exact .inl h

theorem execute_of_step_error {before after : List Located}
    (hsize : env.script.length ≤ env.limits.maxScriptSize)
    (hsplit : env.script.located = before ++ here :: after)
    (hbefore : (before.foldlM (step env) (start env s)).result = .ok m)
    (hstep : (step env m here).result = .error fault) : (env.execute s).result = .error fault := by
  have hsteps : (env.script.located.foldlM (step env) (start env s)).result = .error fault := by
    rw [hsplit, List.foldlM_append, Run.bind_error]
    exact .inr ⟨m, hbefore, Run.foldlM_cons_error.mpr (.inl hstep)⟩
  have hrun : (run env s).result = .error fault := by
    rw [run_of_size hsize, hsteps]
    rfl
  rw [Env.execute, Run.bind_error]
  exact .inl hrun

end Runs

/-- Where operands of an opcode of fixed arity are missing, the opcode and with it the script fail,
and they fail for underflow in all cases but one: an opcode that reads numbers fails for the first
operand, from the top, that is there and is not accepted as a number. -/
theorem missing_operands_refused (env : Env) (m : Machine) (here : Located)
    (hexec : m.executing = true) (haccepts : Accepts env m.executing m.ops here.instruction)
    (hforce : Opcode.InForce env.flags here.opcode)
    (hshort : m.stack.length < Opcode.arity here.opcode) :
    ∃ fault, OperandFault env.numberFormat here.opcode m.stack fault ∧
      (step env m here).result = .error fault ∧
      ∀ s before after, env.script.length ≤ env.limits.maxScriptSize →
        env.script.located = before ++ here :: after →
        (before.foldlM (step env) (start env s)).result = .ok m →
        (env.execute s).result = .error fault := by
  obtain ⟨fault, hreason, hact⟩ := act_short (m := m.count here.instruction) hforce hshort
  rw [← perform_eq_act_of_arity (m := m.count here.instruction) (Nat.zero_lt_of_lt hshort) hexec]
    at hact
  have hstep := step_of_perform_error haccepts hact
  refine ⟨fault, hreason, hstep, ?_⟩
  intro s before after hsize hsplit hbefore
  exact execute_of_step_error hsize hsplit hbefore hstep

/-- One operand for a sum: a number, and five bytes, which are none. -/
theorem missing_operands_refused_sum :
    let env : Env := { flags := .empty, script := [0x93] }
    let here : Located := ⟨.ofOpcode 0x93, []⟩
    Accepts env true 0 here.instruction ∧
    (∃ fault, (step env (start env [[5]]) here).result = .error fault ∧
      (env.execute [[5]]).result = .error fault ∧ fault.code = .underflow) ∧
    ∃ fault, (env.execute [[1, 2, 3, 4, 5]]).result = .error fault ∧
      fault.code = .scriptNumError := by
  intro env here
  have haccepts : Accepts env true 0 here.instruction :=
    ⟨rfl, by decide, by decide, by decide, by decide⟩
  have hforce : Opcode.InForce env.flags here.opcode := ⟨by decide, by decide⟩
  have hlocated : env.script.located = [] ++ here :: [] := by decide +kernel
  have hfive : Number.Readable env.numberFormat [5] := ⟨5, by decide⟩
  have hlong : ¬Number.Readable env.numberFormat [1, 2, 3, 4, 5] := by
    rintro ⟨n, hn⟩
    cases hn
  refine ⟨haccepts, ?_, ?_⟩
  · obtain ⟨fault, hreason, hstep, hexecute⟩ := missing_operands_refused env (start env [[5]]) here
      rfl haccepts hforce (by decide)
    refine ⟨fault, hstep, hexecute _ [] [] (by decide) hlocated rfl, hreason.underflow_iff.mpr ?_⟩
    rintro ⟨-, item, hitem, hunreadable⟩
    obtain rfl := List.mem_singleton.mp hitem
    exact hunreadable hfive
  · obtain ⟨fault, hreason, -, hexecute⟩ := missing_operands_refused env
      (start env [[1, 2, 3, 4, 5]]) here rfl haccepts hforce (by decide)
    refine ⟨fault, hexecute _ [] [] (by decide) hlocated rfl, (hreason.unreadable ?_).2⟩
    rw [ne_eq, hreason.underflow_iff, not_not]
    exact ⟨rfl, _, List.mem_singleton.mpr rfl, hlong⟩

/-- A missing operand is not always reported: a sum of five bytes and nothing fails for the
bytes. -/
theorem missing_operand_unreported :
    let env : Env := { flags := .empty, script := [0x93] }
    let m := start env [[1, 2, 3, 4, 5]]
    let here : Located := ⟨.ofOpcode 0x93, []⟩
    let fault : Fault := .longNumber [1, 2, 3, 4, 5] 4
    (m.executing = true ∧ Accepts env m.executing m.ops here.instruction ∧
      Opcode.InForce env.flags here.opcode ∧ m.stack.length < Opcode.arity here.opcode) ∧
    (step env m here).result = .error fault ∧
    (env.execute [[1, 2, 3, 4, 5]]).result = .error fault ∧ fault.code ≠ .underflow := by
  intro env m here fault
  have hstep : (step env m here).result = .error fault := rfl
  have hlocated : env.script.located = [] ++ here :: [] := by decide +kernel
  refine ⟨⟨rfl, ⟨rfl, by decide, by decide, by decide, by decide⟩, ⟨by decide, by decide⟩,
    by decide⟩, hstep, ?_, by decide⟩
  exact execute_of_step_error (by decide) hlocated rfl hstep

end Machine

end CoinScript
