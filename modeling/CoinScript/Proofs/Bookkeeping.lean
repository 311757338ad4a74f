import CoinScript.Proofs.Nesting
import CoinScript.Proofs.SignatureOps

/-! # Script code and counted operations

Two parts of a machine are not stacks: the script code that signatures cover and the count of
operations. Only an executed code separator changes the code. The count grows by one for every
counted opcode, executed or not, and by the number of keys of every executed multisignature.
-/
namespace CoinScript

/-- The opcodes that leave more than a change of the stacks, or look further than at the items
they take. -/
inductive OpcodeKind where
  | codeSeparator
  | checkSig
  | checkMultisig
  | depth
  | other
deriving DecidableEq

def Opcode.depth : UInt8 := 0x74

def Opcode.kind (opcode : UInt8) : OpcodeKind :=
  if opcode = codeSeparator then .codeSeparator
  else if opcode = checkSig ∨ opcode = checkSigVerify then .checkSig
  else if opcode = checkMultisig ∨ opcode = checkMultisigVerify then .checkMultisig
  else if opcode = depth then .depth
  else .other

def Operation.kind : Operation → OpcodeKind
  | codeSeparator => .codeSeparator
  | checkSig _ => .checkSig
  | checkMultisig _ => .checkMultisig
  | stack .depth => .depth
  | _ => .other

theorem Operation.kind_ofOpcode (opcode : UInt8) : (ofOpcode opcode).kind = Opcode.kind opcode := by
  revert opcode
  exact Opcode.forall_byte (by decide +kernel)

theorem Opcode.kind_of_isPush {opcode : UInt8} (h : isPush opcode = true) :
    kind opcode = .other := by
  revert opcode
  exact @(forall_byte (by decide +kernel))

theorem Opcode.kind_of_isConditional {opcode : UInt8} (h : isConditional opcode = true) :
    kind opcode = .other := by
  revert opcode
  exact @(forall_byte (by decide +kernel))

namespace Machine

variable {env : Env} {m m' : Machine} {here : Located}

/-- The number on top of a stack, as a multisignature reads it. -/
def keyCount (s : Stack) : Nat :=
  match s with
  | [] => 0
  | top :: _ => (Number.clamp32 (Number.decode top)).toNat

theorem keyCount_of_read {format : Number.Format} {item : Bytes} {value : Int} {n : Nat}
    (hread : Number.read format item = .ok value) (hclamp : Number.clamp32 value = n) (s : Stack) :
    keyCount (item :: s) = n := by
  have hvalue : Number.decode item = value := by
    unfold Number.read at hread
    grind
  simp [keyCount, hvalue, hclamp]

theorem Multisig.Layout.length_keys {s rest : Stack} {keys sigs : List Bytes} {dummy : Bytes}
    (h : Layout env s keys sigs dummy rest) : keys.length = keyCount s := by
  obtain ⟨top, mid, rfl, ⟨value, hread, hclamp⟩, -⟩ := h
  exact (keyCount_of_read hread hclamp _).symm

/-- The keys that an instruction adds to the count of operations. -/
def keysCharged (m : Machine) (here : Located) : Nat :=
  if m.executing ∧ Opcode.kind here.opcode = .checkMultisig then keyCount m.stack else 0

/-- An operation that changes neither the code nor the count. -/
def KeepsBooks (f : Machine → Except Fault Machine) : Prop :=
  ∀ m m', f m = .ok m' → m'.code = m.code ∧ m'.ops = m.ops

theorem onStack_keepsBooks (op : Stack → Except Fault Stack) : KeepsBooks (onStack op) := by
  intro m m' h
  obtain ⟨stack, -, h⟩ := bind_eq_ok.mp h
  cases h
  exact ⟨rfl, rfl⟩

theorem openIf_keepsBooks (env : Env) (negated : Bool) : KeepsBooks (openIf env negated) := by
  intro m m' h
  cases hm : m.executing with
  | true =>
    obtain ⟨condition, rest, -, rfl⟩ := openIf_reached hm h
    exact ⟨rfl, rfl⟩
  | false =>
    cases (openIf_skipped hm negated).symm.trans h
    exact ⟨rfl, rfl⟩

theorem switchBranch_keepsBooks : KeepsBooks switchBranch := by
  intro m m' h
  obtain ⟨_, _, -, rfl⟩ := switchBranch_eq_ok_iff.mp h
  exact ⟨rfl, rfl⟩

theorem closeIf_keepsBooks : KeepsBooks closeIf := by
  intro m m' h
  obtain ⟨_, _, -, rfl⟩ := closeIf_eq_ok_iff.mp h
  exact ⟨rfl, rfl⟩

theorem toAlt_keepsBooks : KeepsBooks toAlt := by
  intro m m' h
  obtain ⟨_, -, h⟩ := bind_eq_ok.mp h
  cases h
  exact ⟨rfl, rfl⟩

theorem fromAlt_keepsBooks : KeepsBooks fromAlt := by
  intro m m' h
  unfold fromAlt at h
  split at h
  · cases h
  · cases h
    exact ⟨rfl, rfl⟩

theorem settle_keepsBooks (verify : Bool) (fault : Fault) (verdict : Bool) :
    KeepsBooks (settle verify fault verdict) := by
  intro m m' h
  cases verify <;> cases verdict <;> cases h <;> exact ⟨rfl, rfl⟩

theorem checkSig_keepsBooks (env : Env) (verify : Bool) :
    KeepsBooks fun m => (checkSig env verify m).result := by
  intro m m' h
  obtain ⟨_, _, rest, _, _, -, -, -, -, hsettle⟩ := checkSig_eq_ok_iff.mp h
  exact settle_keepsBooks _ _ _ { m with stack := rest } _ hsettle

/-- What an executed operation does to code and count. -/
structure Books (env : Env) (op : Operation) (rest : Script) (m m' : Machine) : Prop where
  code : m'.code = if op.kind = .codeSeparator then rest else m.code
  ops : m'.ops = m.ops + if op.kind = .checkMultisig then keyCount m.stack else 0
  limit : m.ops ≤ env.limits.maxOps → m'.ops ≤ env.limits.maxOps

theorem KeepsBooks.books {f : Machine → Except Fault Machine} (hf : KeepsBooks f)
    (h : f m = .ok m') {op : Operation} (rest : Script)
    (hop : op.kind ≠ .codeSeparator ∧ op.kind ≠ .checkMultisig) : Books env op rest m m' := by
  obtain ⟨hcode, hops⟩ := hf m m' h
  exact ⟨by rw [if_neg hop.1, hcode], by rw [if_neg hop.2, hops, Nat.add_zero],
    fun hlimit => hops ▸ hlimit⟩

theorem checkMultisig_books {verify : Bool} (rest : Script)
    (h : (checkMultisig env verify m).result = .ok m') :
    Books env (.checkMultisig verify) rest m m' := by
  obtain ⟨ms, code, verdict, htake, -, -, hconclude⟩ := checkMultisig_eq_ok_iff.mp h
  obtain ⟨hlayout, hops, hlimit⟩ := Multisig.layout_of_take htake
  obtain ⟨hcode, hsettled⟩ := settle_keepsBooks _ _ _ _ _ (conclude_ok hconclude)
  have htotal : m'.ops = ms.ops := hsettled
  refine ⟨hcode, ?_, fun _ => htotal ▸ hlimit⟩
  rw [htotal, hops, hlayout.length_keys]
  rfl

theorem act_books (h : (act env m here).result = .ok m') :
    Books env (Operation.ofOpcode here.opcode) here.rest m m' := by
  dsimp only [act] at h
  unfold Located.opcode
  generalize Operation.ofOpcode here.instruction.opcode = op at h ⊢
  cases op with
  | constant | nop | codeSeparator =>
    cases h
    exact ⟨rfl, rfl, id⟩
  | earlyReturn | invalid => cases h
  | upgradableNop =>
    obtain ⟨rfl, -⟩ := upgradableNop_eq_ok_iff.mp h
    exact ⟨rfl, rfl, id⟩
  | lockTime =>
    obtain ⟨rfl, -⟩ := lockTimeVerify_eq_ok_iff.mp h
    exact ⟨rfl, rfl, id⟩
  | sequence =>
    obtain ⟨rfl, -⟩ := sequenceVerify_eq_ok_iff.mp h
    exact ⟨rfl, rfl, id⟩
  | openIf negated => exact (openIf_keepsBooks env negated).books h _ ⟨nofun, nofun⟩
  | switch => exact switchBranch_keepsBooks.books h _ ⟨nofun, nofun⟩
  | closeIf => exact closeIf_keepsBooks.books h _ ⟨nofun, nofun⟩
  | toAlt => exact toAlt_keepsBooks.books h _ ⟨nofun, nofun⟩
  | fromAlt => exact fromAlt_keepsBooks.books h _ ⟨nofun, nofun⟩
  | stack op =>
    refine (onStack_keepsBooks _).books h _ ?_
    cases op <;> exact ⟨nofun, nofun⟩
  | number => exact (onStack_keepsBooks _).books h _ ⟨nofun, nofun⟩
  | checkSig verify => exact (checkSig_keepsBooks env verify).books h _ ⟨nofun, nofun⟩
  | checkMultisig verify => exact checkMultisig_books _ h

/-- The script code after an instruction. -/
def codeAfter (m : Machine) (here : Located) : Script :=
  if m.executing ∧ Opcode.kind here.opcode = .codeSeparator then here.rest else m.code

theorem perform_books (h : (perform env m here).result = .ok m') :
    m'.code = m.codeAfter here ∧ m'.ops = m.ops + m.keysCharged here ∧
      (m.ops ≤ env.limits.maxOps → m'.ops ≤ env.limits.maxOps) := by
  unfold codeAfter keysCharged
  have hother (hkind : Opcode.kind here.opcode = .other) :
      Opcode.kind here.opcode ≠ .codeSeparator ∧ Opcode.kind here.opcode ≠ .checkMultisig := by
    rw [hkind]
    exact ⟨nofun, nofun⟩
  rcases perform_cases h with ⟨hexec, hpush, h⟩ | ⟨hacts, h⟩ | ⟨hexec, rfl⟩
  · obtain ⟨-, rfl⟩ := pushData_eq_ok_iff.mp h
    have hkind := hother (Opcode.kind_of_isPush hpush)
    simp [hkind]
  · obtain ⟨hcode, hops, hlimit⟩ := act_books h
    rw [Operation.kind_ofOpcode] at hcode hops
    cases hexec : m.executing with
    | true =>
      simp only [true_and]
      exact ⟨hcode, hops, hlimit⟩
    | false =>
      have hkind := hother (Opcode.kind_of_isConditional (hacts.resolve_left (by simp [hexec])))
      rw [if_neg hkind.1] at hcode
      rw [if_neg hkind.2] at hops
      simpa using ⟨hcode, hops, hlimit⟩
  · simp [hexec]

theorem step_books (h : (step env m here).result = .ok m') :
    m'.code = m.codeAfter here ∧
      m'.ops = m.ops + (Opcode.isCounted here.opcode).toNat + m.keysCharged here ∧
      (m.ops ≤ env.limits.maxOps → m'.ops ≤ env.limits.maxOps) := by
  obtain ⟨haccepts, hperform, -⟩ := step_ok_iff.mp h
  obtain ⟨hcode, hops, hlimit⟩ := perform_books hperform
  have hcounted :
      (m.count here.instruction).ops = m.ops + (Opcode.isCounted here.opcode).toNat := by
    unfold count Located.opcode
    cases Opcode.isCounted here.instruction.opcode <;> rfl
  refine ⟨hcode, by rw [hops, hcounted]; rfl, fun hm => hlimit ?_⟩
  rw [hcounted]
  cases hop : Opcode.isCounted here.opcode with
  | true => exact haccepts.counted hop
  | false => exact hm

end Machine

end CoinScript
