import CoinScript.Proofs.Bookkeeping

/-! # Events of a run

A step leaves an event of its own and then, if it executes a signature operation, the checks
that this operation makes. A run leaves the events of its steps one after the other, so every
event of a run belongs to a step that all steps before it have led to.
-/
namespace CoinScript

theorem Opcode.isCounted_of_kind {opcode : UInt8} (h : kind opcode ≠ .other) :
    isCounted opcode = true := by
  revert opcode
  exact @(forall_byte (by decide +kernel))

namespace Machine

variable {env : Env} {m m' : Machine} {here : Located} {sigs keys : List Bytes} {code : Script}

section Steps

theorem Operands.kind {s : Stack} {op : Operation} (h : Operands env s op sigs keys) :
    op.kind = .checkSig ∧ keys.length = 1 ∨
      op.kind = .checkMultisig ∧ keys.length = keyCount s ∧
        keys.length ≤ env.limits.maxKeysPerMultisig := by
  cases h with
  | single hstack => exact .inl ⟨rfl, rfl⟩
  | multi hlayout =>
    have hcount := hlayout.length_keys
    obtain ⟨_, _, -, -, hmax, -⟩ := hlayout
    exact .inr ⟨rfl, hcount, hmax⟩

theorem act_checks (env : Env) (m : Machine) (here : Located) :
    (act env m here).events = [] ∨ ∃ sigs keys code,
      Operands env m.stack (Operation.ofOpcode here.opcode) sigs keys ∧
      env.removeSignatures m.code sigs = .ok code ∧
      (keys.length = 1 ∨ m.ops + keys.length ≤ env.limits.maxOps) ∧
      Checks env code sigs keys (act env m here).events := by
  dsimp only [act]
  unfold Located.opcode
  cases Operation.ofOpcode here.instruction.opcode with
  | checkSig verify =>
    rcases checkSig_single env verify m with h | ⟨sigs, keys, code, hoperands, hcode, hchecks⟩
    · exact .inl h
    · refine .inr ⟨sigs, keys, code, hoperands, hcode, .inl ?_, hchecks⟩
      cases hoperands
      rfl
  | checkMultisig verify =>
    rcases checkMultisig_multi env verify m with
      h | ⟨sigs, keys, code, hoperands, hcode, hops, hchecks⟩
    · exact .inl h
    · exact .inr ⟨sigs, keys, code, hoperands, hcode, .inr hops, hchecks⟩
  | _ => exact .inl rfl

theorem perform_events (env : Env) (m : Machine) (here : Located) :
    (perform env m here).events = [] ∨
      (m.executing = true ∨ Opcode.isConditional here.opcode = true) ∧
        (perform env m here).events = (act env m here).events := by
  unfold perform
  split
  · exact .inl rfl
  · split
    · next hacts => exact .inr ⟨Bool.or_eq_true_iff.mp hacts, rfl⟩
    · exact .inl rfl

theorem step_events (env : Env) (m : Machine) (here : Located) :
    (step env m here).events = [.step env.script here m.executing m.stack.length] ∨
      Accepts env m.executing m.ops here.instruction ∧ (step env m here).events =
        .step env.script here m.executing m.stack.length ::
          (perform env (m.count here.instruction) here).events := by
  unfold step
  rw [Run.events_emit_bind]
  rcases Run.events_ofExcept_bind (accept env m here.instruction) _ with h | ⟨counted, haccept, h⟩
  · exact .inl (by rw [h])
  · obtain ⟨haccepts, rfl⟩ := accept_eq_ok_iff.mp haccept
    rw [h, Run.events_bind_quiet fun _ => rfl]
    exact .inr ⟨haccepts, rfl⟩

/-- The checks of an instruction: it executes, finds their signatures and keys on the stack, and
has them checked against the script code without the signatures. -/
structure ChecksAt (env : Env) (m : Machine) (here : Located) (sigs keys : List Bytes)
    (code : Script) (events : List Event) : Prop where
  executing : m.executing = true
  operands : Operands env m.stack (Operation.ofOpcode here.opcode) sigs keys
  removed : env.removeSignatures m.code sigs = .ok code
  budget : m.ops + keys.length ≤ env.limits.maxOps
  checks : Checks env code sigs keys events

theorem step_checks (env : Env) (m : Machine) (here : Located) : ∃ checks,
    (step env m here).events = .step env.script here m.executing m.stack.length :: checks ∧
      (checks = [] ∨ here.instruction.cut = false ∧
        ∃ sigs keys code, ChecksAt env m here sigs keys code checks) := by
  rcases step_events env m here with h | ⟨haccepts, h⟩
  · exact ⟨[], h, .inl rfl⟩
  refine ⟨_, h, ?_⟩
  rcases perform_events env (m.count here.instruction) here with hnone | ⟨hacts, hperform⟩
  · exact .inl hnone
  rw [hperform]
  rcases act_checks env (m.count here.instruction) here with
    hnone | ⟨sigs, keys, code, hoperands, hcode, hops, hchecks⟩
  · exact .inl hnone
  refine .inr ⟨haccepts.whole, sigs, keys, code, ?_⟩
  have hkind : Opcode.kind here.opcode ≠ .other := by
    rw [← Operation.kind_ofOpcode]
    rcases hoperands.kind with ⟨hkind, -⟩ | ⟨hkind, -⟩ <;> rw [hkind] <;> nofun
  have hcounted := Opcode.isCounted_of_kind hkind
  have hexec : m.executing = true :=
    hacts.resolve_right fun hflow => hkind (Opcode.kind_of_isConditional hflow)
  have hlimit := haccepts.counted hcounted
  have hmore := le_count m here.instruction
  refine ⟨hexec, hoperands, hcode, ?_, hchecks⟩
  rcases hops with hone | hops <;> omega

end Steps

section Runs

variable {xs : List Located}

theorem execute_events (env : Env) (stack : Stack) : (env.execute stack).events = [] ∨
    (env.execute stack).events =
      (env.script.located.foldlM (step env) (start env stack)).events := by
  unfold Env.execute
  rw [Run.events_bind_quiet fun _ => rfl]
  unfold run
  split
  · exact .inl rfl
  · rw [Run.events_bind_quiet]
    · exact .inr rfl
    · intro last
      split <;> rfl

end Runs

end Machine

end CoinScript
