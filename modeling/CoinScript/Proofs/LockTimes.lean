import CoinScript.Proofs.ShortestNumber
import CoinScript.Proofs.StackFrame
import Mathlib.Data.Nat.Bitwise

/-! # Lock times by their fields

An operand of a lock time has up to 39 bits, a sequence number has 32, and both are compared under
one mask that holds the bit for the kind of a lock together with the lock itself. Field by field,
the bit that switches a lock off is the thirty-first, the kind is the twenty-second, and the lock
is what the lowest sixteen hold; all other bits are without effect. The comparison with the lock
time of the transaction needs no mask. A lock that is reached stays reached at every later time of
its kind.
-/
namespace CoinScript.Machine

section Fields

/-- An item denotes a number that is not negative, in five bytes at most and, where the rule asks
for it, in its shortest form. -/
structure LockOperand (flags : Flags) (item : Bytes) (n : Nat) : Prop where
  length_le : item.length ≤ 5
  shortest : flags.has .minimalData = true → Number.encode n = item
  denotes : Number.decode item = n

/-- The transaction is locked until a height or a time that is not before the operand, which is
of the same kind, and the input does not opt out. -/
structure LockTimeReached (ctx : TxContext) (n : Nat) : Prop where
  kind : n < 500000000 ↔ ctx.lockTime.toNat < 500000000
  reached : n ≤ ctx.lockTime.toNat
  open_input : ctx.sequence ≠ 0xffffffff

/-- The input is locked for a number of blocks or units of time that is not below the operand,
which is of the same kind. -/
structure SequenceReached (ctx : TxContext) (n : Nat) : Prop where
  version : 2 ≤ ctx.version.toNat
  enabled : ctx.sequence.toNat.testBit 31 = false
  kind : n.testBit 22 = ctx.sequence.toNat.testBit 22
  reached : n % 2 ^ 16 ≤ ctx.sequence.toNat % 2 ^ 16

/-- Two sequence numbers are in force or not, and of one kind, together, and the lock of the
second is not below that of the first. -/
structure NotBelow (a b : Nat) : Prop where
  disabled : a.testBit 31 = b.testBit 31
  kind : a.testBit 22 = b.testBit 22
  lock : a % 2 ^ 16 ≤ b % 2 ^ 16

/-- Two sequence numbers agree in all fields. Their other bits are free. -/
def SameFields (a b : Nat) : Prop :=
  ∀ i, i < 16 ∨ i = 22 ∨ i = 31 → a.testBit i = b.testBit i

variable {a b : Nat}

theorem SameFields.symm (h : SameFields a b) : SameFields b a := fun i hi => (h i hi).symm

theorem SameFields.notBelow (h : SameFields a b) : NotBelow a b := by
  have hlock : a % 2 ^ 16 = b % 2 ^ 16 := by
    refine Nat.eq_of_testBit_eq fun i => ?_
    rw [Nat.testBit_mod_two_pow, Nat.testBit_mod_two_pow]
    by_cases hi : i < 16
    · rw [h i (.inl hi)]
    · simp [hi]
  exact ⟨h 31 (by simp), h 22 (by simp), Nat.le_of_eq hlock⟩

variable {ctx : TxContext} {n n' : Nat}

theorem LockTimeReached.later (h : LockTimeReached ctx n) {lockTime : UInt32}
    (hkind : ctx.lockTime.toNat < 500000000 ↔ lockTime.toNat < 500000000)
    (hle : ctx.lockTime ≤ lockTime) : LockTimeReached { ctx with lockTime } n :=
  ⟨h.kind.trans hkind, h.reached.trans hle, h.open_input⟩

theorem SequenceReached.later (h : SequenceReached ctx n) {sequence : UInt32}
    (hle : NotBelow ctx.sequence.toNat sequence.toNat) :
    SequenceReached { ctx with sequence } n :=
  ⟨h.version, hle.disabled ▸ h.enabled, h.kind.trans hle.kind, h.reached.trans hle.lock⟩

theorem SequenceReached.earlier (h : SequenceReached ctx n) (hle : NotBelow n' n) :
    SequenceReached ctx n' :=
  ⟨h.version, h.enabled, hle.kind.trans h.kind, hle.lock.trans h.reached⟩

end Fields

section Masks

theorem and_sequenceDisabledBit (x : Nat) :
    x &&& sequenceDisabledBit ≠ 0 ↔ x.testBit 31 = true := by
  have hbit : sequenceDisabledBit = 2 ^ 31 := rfl
  rw [hbit, Nat.and_two_pow]
  cases x.testBit 31 <;> decide

/-- The mask keeps the lock and, above it, the bit for the kind. -/
theorem and_sequenceMask (x : Nat) :
    x &&& sequenceMask = 2 ^ 22 * (x.testBit 22).toNat + x % 2 ^ 16 := by
  have hmask : sequenceMask = 2 ^ 22 ||| (2 ^ 16 - 1) := rfl
  have hlow : x % 2 ^ 16 < 2 ^ 22 := by omega
  rw [hmask, Nat.and_or_distrib_left, Nat.and_two_pow, Nat.and_two_pow_sub_one_eq_mod,
    Nat.two_pow_add_eq_or_of_lt hlow, Nat.mul_comm]

theorem and_sequenceMask_lt (x : Nat) :
    x &&& sequenceMask < sequenceTimeBit ↔ x.testBit 22 = false := by
  have hbit : sequenceTimeBit = 2 ^ 22 := rfl
  rw [and_sequenceMask, hbit]
  cases x.testBit 22 with
  | false =>
    simp only [Bool.toNat_false, iff_true]
    omega
  | true =>
    simp only [Bool.toNat_true, Bool.true_eq_false, iff_false]
    omega

theorem and_sequenceMask_lt_and_sequenceMask {a b : Nat} (h : a.testBit 22 = b.testBit 22) :
    a &&& sequenceMask < b &&& sequenceMask ↔ a % 2 ^ 16 < b % 2 ^ 16 := by
  rw [and_sequenceMask, and_sequenceMask, h]
  omega

end Masks

section Checks

theorem error_ite_eq_ok_iff {α : Type} {c : Prop} [Decidable c] {fault : Fault}
    {next : Except Fault α} {a : α} :
    (if c then .error fault else next) = .ok a ↔ ¬c ∧ next = .ok a := by
  split
  · next hc => simp [hc]
  · next hc => simp [hc]

variable {ctx : TxContext} {n : Nat}

theorem checkLockTime_eq_ok_iff : checkLockTime ctx n = .ok () ↔ LockTimeReached ctx n := by
  unfold checkLockTime
  dsimp only
  rw [error_ite_eq_ok_iff, error_ite_eq_ok_iff, error_ite_eq_ok_iff, not_not, Nat.not_lt]
  constructor
  · rintro ⟨hkind, hreached, hopen, -⟩
    exact ⟨hkind.symm, hreached, hopen⟩
  · intro h
    exact ⟨h.kind.symm, h.reached, h.open_input, rfl⟩

theorem checkSequence_eq_ok_iff : checkSequence ctx n = .ok () ↔ SequenceReached ctx n := by
  have hversion : ¬ctx.version < 2 ↔ 2 ≤ ctx.version.toNat := by
    rw [UInt32.not_lt]
    rfl
  have hkind : (ctx.sequence.toNat &&& sequenceMask < sequenceTimeBit ↔
      n &&& sequenceMask < sequenceTimeBit) ↔
        n.testBit 22 = ctx.sequence.toNat.testBit 22 := by
    rw [and_sequenceMask_lt, and_sequenceMask_lt]
    cases n.testBit 22 <;> cases ctx.sequence.toNat.testBit 22 <;> decide
  unfold checkSequence
  dsimp only
  rw [error_ite_eq_ok_iff, error_ite_eq_ok_iff, error_ite_eq_ok_iff, error_ite_eq_ok_iff,
    hversion, and_sequenceDisabledBit, not_not, hkind, Bool.not_eq_true]
  constructor
  · rintro ⟨hversion, henabled, hkind, hreached, -⟩
    rw [and_sequenceMask_lt_and_sequenceMask hkind.symm, Nat.not_lt] at hreached
    exact ⟨hversion, henabled, hkind, hreached⟩
  · intro h
    refine ⟨h.version, h.enabled, h.kind, ?_, rfl⟩
    rw [and_sequenceMask_lt_and_sequenceMask h.kind.symm, Nat.not_lt]
    exact h.reached

end Checks

section Operands

variable {env : Env} {flags : Flags} {item : Bytes} {n n' : Nat}

theorem LockOperand.unique (h : LockOperand flags item n) (h' : LockOperand flags item n') :
    n = n' := Int.ofNat.inj (h.denotes.symm.trans h'.denotes)

theorem read_lockFormat_eq_ok_iff :
    Number.read env.lockFormat item = .ok (n : Int) ↔ LockOperand env.flags item n := by
  have hminimal : ¬(env.lockFormat.minimal && !Number.isMinimal item) = true ↔
      (env.flags.has .minimalData = true → Number.encode (Number.decode item) = item) := by
    rw [Number.encode_decode_iff, Bool.and_eq_true, not_and, Bool.not_eq_true, Bool.not_eq_false']
    rfl
  unfold Number.read
  rw [error_ite_eq_ok_iff, error_ite_eq_ok_iff, Nat.not_lt, hminimal, Except.ok.injEq]
  constructor
  · rintro ⟨hlength, hshortest, hdenotes⟩
    exact ⟨hlength, hdenotes ▸ hshortest, hdenotes⟩
  · intro h
    exact ⟨h.length_le, h.denotes ▸ h.shortest, h.denotes⟩

/-- The operands of lock times are the numbers of 39 bits. -/
theorem exists_lockOperand_iff : (∃ item, LockOperand flags item n) ↔ n < 2 ^ 39 := by
  constructor
  · rintro ⟨item, h⟩
    have hbound : 2 * (Number.decode item).natAbs < 256 ^ item.length :=
      Number.natAbs_decode_lt item
    have hwidth : 256 ^ item.length ≤ 256 ^ 5 := Nat.pow_le_pow_right (by decide) h.length_le
    rw [h.denotes, Int.natAbs_natCast] at hbound
    omega
  · intro hn
    refine ⟨Number.encode n, ?_, fun _ => rfl, Number.decode_encode n⟩
    rw [Number.length_encode_le_iff, Int.natAbs_natCast]
    omega

end Operands

section Opcodes

/-- An opcode that compares a lock is executed with its rule in force, and `item` is on top of
the stack. -/
structure Compares (opcode : UInt8) (rule : Rule) (flags : Flags) (m : Machine) (here : Located)
    (item : Bytes) : Prop where
  opcode : here.opcode = opcode
  rule : flags.has rule = true
  executing : m.executing = true
  top : ∃ rest, m.stack = item :: rest

def Passes (env : Env) (m : Machine) (here : Located) : Prop :=
  ∃ m', (perform env m here).result = .ok m'

variable {env : Env} {m m' : Machine} {here : Located} {item : Bytes}

theorem perform_eq_act (hpush : Opcode.isPush here.opcode = false)
    (hflow : Opcode.isConditional here.opcode = false) :
    perform env m here = if m.executing then act env m here else pure m := by
  have hpush' : here.instruction.isPush = false := hpush
  have hflow' : Opcode.isConditional here.instruction.opcode = false := hflow
  simp only [perform, hpush', hflow', Bool.and_false, Bool.or_false, Bool.false_eq_true, ↓reduceIte]

theorem act_lockTime (h : here.opcode = Opcode.lockTimeVerify) :
    act env m here = Run.ofExcept (lockTimeVerify env here.opcode m) := by
  unfold act Located.opcode at *
  rw [h]
  rfl

theorem act_sequence (h : here.opcode = Opcode.sequenceVerify) :
    act env m here = Run.ofExcept (sequenceVerify env here.opcode m) := by
  unfold act Located.opcode at *
  rw [h]
  rfl

theorem eq_of_perform_lock
    (hop : here.opcode = Opcode.lockTimeVerify ∨ here.opcode = Opcode.sequenceVerify)
    (h : (perform env m here).result = .ok m') : m' = m := by
  rcases hop with hop | hop
  · rw [perform_eq_act (hop ▸ rfl) (hop ▸ rfl), act_lockTime hop] at h
    split at h
    · exact (lockTimeVerify_eq_ok_iff.mp h).1
    · exact (Except.ok.inj h).symm
  · rw [perform_eq_act (hop ▸ rfl) (hop ▸ rfl), act_sequence hop] at h
    split at h
    · exact (sequenceVerify_eq_ok_iff.mp h).1
    · exact (Except.ok.inj h).symm

theorem lockOperandOf_top {rest : Stack} {n : Nat} :
    lockOperandOf env (item :: rest) = .ok n ↔ LockOperand env.flags item n := by
  rw [lockOperandOf_eq_ok_iff, ← read_lockFormat_eq_ok_iff]
  constructor
  · rintro ⟨top, below, hstack, hread⟩
    cases hstack
    exact hread
  · intro hread
    exact ⟨item, rest, rfl, hread⟩

theorem passes_lockTime_iff
    (h : Compares Opcode.lockTimeVerify .checkLockTimeVerify env.flags m here item) :
    Passes env m here ↔ ∃ n ctx, LockOperand env.flags item n ∧ env.context = some ctx ∧
      LockTimeReached ctx n := by
  obtain ⟨rest, hstack⟩ := h.top
  unfold Passes
  rw [perform_eq_act (h.opcode ▸ rfl) (h.opcode ▸ rfl), if_pos h.executing, act_lockTime h.opcode]
  simp only [Run.result_ofExcept, lockTimeVerify_eq_ok_iff, h.rule, ↓reduceIte, exists_eq_left,
    hstack, lockOperandOf_top, checkLockTime_eq_ok_iff]

theorem passes_sequence_iff
    (h : Compares Opcode.sequenceVerify .checkSequenceVerify env.flags m here item) :
    Passes env m here ↔ ∃ n, LockOperand env.flags item n ∧
      (n.testBit 31 = true ∨ ∃ ctx, env.context = some ctx ∧ SequenceReached ctx n) := by
  obtain ⟨rest, hstack⟩ := h.top
  unfold Passes
  rw [perform_eq_act (h.opcode ▸ rfl) (h.opcode ▸ rfl), if_pos h.executing, act_sequence h.opcode]
  simp only [Run.result_ofExcept, sequenceVerify_eq_ok_iff, h.rule, ↓reduceIte, exists_eq_left,
    hstack, lockOperandOf_top, and_sequenceDisabledBit, checkSequence_eq_ok_iff]

end Opcodes

section Order

def inContext (env : Env) (ctx : TxContext) : Env := { env with context := some ctx }

variable {env : Env} {m m' : Machine} {here here' : Located} {item item' : Bytes} {ctx : TxContext}
  {n n' : Nat}

theorem Passes.later_lockTime {lockTime : UInt32}
    (h : Compares Opcode.lockTimeVerify .checkLockTimeVerify env.flags m here item)
    (hkind : ctx.lockTime.toNat < 500000000 ↔ lockTime.toNat < 500000000)
    (hle : ctx.lockTime ≤ lockTime) (hpasses : Passes (inContext env ctx) m here) :
    Passes (inContext env { ctx with lockTime }) m here := by
  -- The rules and the stack are the same in both transactions, and so is the situation.
  obtain ⟨n, _, hn, hctx, hreached⟩ := (passes_lockTime_iff (by exact h)).mp hpasses
  cases hctx
  refine (passes_lockTime_iff (by exact h)).mpr ⟨n, _, hn, rfl, ?_⟩
  exact hreached.later hkind hle

theorem Passes.later_sequence {sequence : UInt32}
    (h : Compares Opcode.sequenceVerify .checkSequenceVerify env.flags m here item)
    (hle : NotBelow ctx.sequence.toNat sequence.toNat)
    (hpasses : Passes (inContext env ctx) m here) :
    Passes (inContext env { ctx with sequence }) m here := by
  obtain ⟨n, hn, hpasses⟩ := (passes_sequence_iff (by exact h)).mp hpasses
  refine (passes_sequence_iff (by exact h)).mpr ⟨n, hn, ?_⟩
  rcases hpasses with hdisabled | ⟨_, hctx, hreached⟩
  · exact .inl hdisabled
  · cases hctx
    exact .inr ⟨_, rfl, hreached.later hle⟩

theorem Passes.earlier_operand
    (h : Compares Opcode.sequenceVerify .checkSequenceVerify env.flags m here item)
    (h' : Compares Opcode.sequenceVerify .checkSequenceVerify env.flags m' here' item')
    (hn : LockOperand env.flags item n) (hn' : LockOperand env.flags item' n')
    (hle : NotBelow n' n) (hpasses : Passes env m here) : Passes env m' here' := by
  obtain ⟨k, hk, hpasses⟩ := (passes_sequence_iff h).mp hpasses
  cases hk.unique hn
  refine (passes_sequence_iff h').mpr ⟨n', hn', ?_⟩
  rcases hpasses with hdisabled | ⟨ctx, hctx, hreached⟩
  · exact .inl (hle.disabled.trans hdisabled)
  · exact .inr ⟨ctx, hctx, hreached.earlier hle⟩

end Order

/-- Each of the two opcodes is decided by the fields of its operand and of the transaction: a lock
time by its kind, its size and whether the input is final, a sequence number by the two bits for
its use and its kind, and by its lowest sixteen bits. No other bit of an operand, which may have 39,
or of the sequence number matters, nothing is changed on either stack, and what passes also passes
for a later lock of the same kind. -/
theorem locks_decided_by_fields :
    (∀ (env : Env) (m : Machine) (here : Located) (item : Bytes),
      Compares Opcode.lockTimeVerify .checkLockTimeVerify env.flags m here item →
      (Passes env m here ↔ ∃ n ctx, LockOperand env.flags item n ∧ env.context = some ctx ∧
        LockTimeReached ctx n) ∧
      ∀ (ctx : TxContext) (lockTime : UInt32),
        (ctx.lockTime.toNat < 500000000 ↔ lockTime.toNat < 500000000) → ctx.lockTime ≤ lockTime →
        Passes (inContext env ctx) m here → Passes (inContext env { ctx with lockTime }) m here) ∧
    (∀ (env : Env) (m : Machine) (here : Located) (item : Bytes),
      Compares Opcode.sequenceVerify .checkSequenceVerify env.flags m here item →
      (Passes env m here ↔ ∃ n, LockOperand env.flags item n ∧
        (n.testBit 31 = true ∨ ∃ ctx, env.context = some ctx ∧ SequenceReached ctx n)) ∧
      (∀ (ctx : TxContext) (sequence : UInt32), NotBelow ctx.sequence.toNat sequence.toNat →
        Passes (inContext env ctx) m here → Passes (inContext env { ctx with sequence }) m here) ∧
      (∀ (ctx : TxContext) (sequence : UInt32), SameFields ctx.sequence.toNat sequence.toNat →
        (Passes (inContext env ctx) m here ↔ Passes (inContext env { ctx with sequence }) m here)) ∧
      ∀ (m' : Machine) (here' : Located) (item' : Bytes) (n n' : Nat),
        Compares Opcode.sequenceVerify .checkSequenceVerify env.flags m' here' item' →
        LockOperand env.flags item n → LockOperand env.flags item' n' → SameFields n n' →
        (Passes env m here ↔ Passes env m' here')) ∧
    (∀ (flags : Flags) (n : Nat), (∃ item, LockOperand flags item n) ↔ n < 2 ^ 39) ∧
    ∀ (env : Env) (m m' : Machine) (here : Located),
      here.opcode = Opcode.lockTimeVerify ∨ here.opcode = Opcode.sequenceVerify →
      (perform env m here).result = .ok m' → m' = m := by
  refine ⟨?_, ?_, fun _ _ => exists_lockOperand_iff, fun _ _ _ _ => eq_of_perform_lock⟩
  · intro env m here item h
    exact ⟨passes_lockTime_iff h, fun _ _ => Passes.later_lockTime h⟩
  · intro env m here item h
    refine ⟨passes_sequence_iff h, fun _ _ => Passes.later_sequence h, ?_, ?_⟩
    · intro ctx sequence hsame
      constructor
      · exact Passes.later_sequence h hsame.notBelow
      · exact Passes.later_sequence h hsame.symm.notBelow
    · intro m' here' item' n n' h' hn hn' hsame
      constructor
      · exact Passes.earlier_operand h h' hn hn' hsame.symm.notBelow
      · exact Passes.earlier_operand h' h hn' hn hsame.notBelow

/-- A lock of sixteen units of time passes with bits set that are in no field, also above the
thirty-second, and as well without them; one of seventeen does not. A lock time of 100 stays
reached at 101. -/
theorem locks_decided_by_fields_spare_bits :
    let ctx : TxContext :=
      { lockTime := 100, version := 2, sequence := 0x0f400010, signatureHash := fun _ _ _ => [] }
    let env : Env :=
      { flags := Flags.ofRules [.minimalData, .checkLockTimeVerify, .checkSequenceVerify]
        context := some ctx
        script := [] }
    let on (item : Bytes) : Machine := { stack := [item], code := [] }
    let sequence : Located := ⟨.ofOpcode Opcode.sequenceVerify, []⟩
    let lockTime : Located := ⟨.ofOpcode Opcode.lockTimeVerify, []⟩
    Passes env (on [0x10, 0, 0x40, 0, 0x10]) sequence ∧ Passes env (on [0x10, 0, 0x40]) sequence ∧
      ¬Passes env (on [0x11, 0, 0x40]) sequence ∧
      Passes (inContext env { ctx with lockTime := 101 }) (on [100]) lockTime := by
  intro ctx env on sequence lockTime
  obtain ⟨htimes, hsequences, -, -⟩ := locks_decided_by_fields
  have hcompares (item : Bytes) : Compares Opcode.sequenceVerify .checkSequenceVerify env.flags
      (on item) sequence item := ⟨rfl, by decide, rfl, [], rfl⟩
  have hoperand {item : Bytes} {n : Nat} (hlength : item.length ≤ 5)
      (hminimal : Number.isMinimal item = true) (hdenotes : Number.decode item = n) :
      LockOperand env.flags item n :=
    ⟨hlength, fun _ => hdenotes ▸ Number.encode_decode hminimal, hdenotes⟩
  have hlow : LockOperand env.flags [0x10, 0, 0x40] 0x400010 :=
    hoperand (by decide) (by decide) (by decide)
  have hspare : LockOperand env.flags [0x10, 0, 0x40, 0, 0x10] 0x1000400010 :=
    hoperand (by decide) (by decide) (by decide)
  have hsame : SameFields 0x400010 0x1000400010 := by
    have hlock : ∀ i < 16, Nat.testBit 0x400010 i = Nat.testBit 0x1000400010 i := by decide
    rintro i (hi | rfl | rfl)
    · exact hlock i hi
    · rfl
    · rfl
  obtain ⟨hiff, -, -, hspareIff⟩ := hsequences env _ sequence _ (hcompares [0x10, 0, 0x40])
  have hpasses : Passes env (on [0x10, 0, 0x40]) sequence :=
    hiff.mpr ⟨_, hlow, .inr ⟨ctx, rfl, ⟨by decide, by decide, by decide, by decide⟩⟩⟩
  refine ⟨?_, hpasses, ?_, ?_⟩
  · exact (hspareIff _ sequence _ _ _ (hcompares _) hlow hspare hsame).mp hpasses
  · rw [(hsequences env _ sequence _ (hcompares [0x11, 0, 0x40])).1]
    rintro ⟨n, hn, hpasses⟩
    have hvalue : n = 0x400011 := Int.ofNat.inj (hn.denotes.symm.trans (by decide))
    subst hvalue
    rcases hpasses with hdisabled | ⟨_, hctx, hreached⟩
    · exact absurd hdisabled (by decide)
    · cases hctx
      exact absurd hreached.reached (by decide)
  · obtain ⟨hiff, hlater⟩ := htimes env (on [100]) lockTime [100] ⟨rfl, by decide, rfl, [], rfl⟩
    refine hlater ctx 101 (by decide) (by decide) (hiff.mpr ⟨100, ctx, ?_, rfl, ?_⟩)
    · exact hoperand (by decide) (by decide) (by decide)
    · exact ⟨by decide, by decide, by decide⟩

end CoinScript.Machine
