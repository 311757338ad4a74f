import CoinScript.Proofs.Bounds
import CoinScript.Proofs.ShortestNumber
import Mathlib.Algebra.Order.Group.Unbundled.Int

/-! # Exact arithmetic

Numeric opcodes compute functions and predicates of integers, whatever the strings look like that
the operands are read from. Nothing is lost to a width: a result is written in its shortest form,
which may be one byte longer than an operand may be. Such a result is pushed, but it is no longer
accepted as an operand.
-/
namespace CoinScript

/-- What a numeric opcode computes: a number, or whether something is the case. -/
inductive NumberOp.Value where
  | number (n : Int)
  | truth (b : Bool)
deriving DecidableEq, Repr

namespace NumberOp

def Value.item : Value → Bytes
  | number n => Number.encode n
  | truth b => if b then [1] else []

def Value.toInt : Value → Int
  | number n => n
  | truth b => if b then 1 else 0

/-- What opcodes compute from the numbers on the stack, of which the last is on top. -/
inductive Computes : UInt8 → List Int → Value → Prop
  | increment {a : Int} : Computes 0x8b [a] (.number (a + 1))
  | decrement {a : Int} : Computes 0x8c [a] (.number (a - 1))
  | negate {a : Int} : Computes 0x8f [a] (.number (-a))
  | absolute {a : Int} : Computes 0x90 [a] (.number |a|)
  | isZero {a : Int} : Computes 0x91 [a] (.truth (a = 0))
  | isNonzero {a : Int} : Computes 0x92 [a] (.truth (a ≠ 0))
  | add {a b : Int} : Computes 0x93 [a, b] (.number (a + b))
  | subtract {a b : Int} : Computes 0x94 [a, b] (.number (a - b))
  | both {a b : Int} : Computes 0x9a [a, b] (.truth (a ≠ 0 ∧ b ≠ 0))
  | either {a b : Int} : Computes 0x9b [a, b] (.truth (a ≠ 0 ∨ b ≠ 0))
  | equal {a b : Int} : Computes 0x9c [a, b] (.truth (a = b))
  | notEqual {a b : Int} : Computes 0x9e [a, b] (.truth (a ≠ b))
  | less {a b : Int} : Computes 0x9f [a, b] (.truth (a < b))
  | greater {a b : Int} : Computes 0xa0 [a, b] (.truth (a > b))
  | lessOrEqual {a b : Int} : Computes 0xa1 [a, b] (.truth (a ≤ b))
  | greaterOrEqual {a b : Int} : Computes 0xa2 [a, b] (.truth (a ≥ b))
  | minimum {a b : Int} : Computes 0xa3 [a, b] (.number (min a b))
  | maximum {a b : Int} : Computes 0xa4 [a, b] (.number (max a b))
  | within {x lower upper : Int} :
    Computes 0xa5 [x, lower, upper] (.truth (lower ≤ x ∧ x < upper))

/-- Items that are accepted as operands, with the numbers that they denote. -/
def Operands (format : Number.Format) : List Bytes → List Int → Prop :=
  List.Forall₂ fun item n => Number.read format item = .ok n

variable {format : Number.Format} {opcode : UInt8} {items : List Bytes} {numbers : List Int}
  {value : Value}

section Values

theorem Value.item_eq_encode (value : Value) : value.item = Number.encode value.toInt := by
  have hall : ∀ b : Bool, item (truth b) = Number.encode (toInt (truth b)) := by decide +kernel
  cases value with
  | number n => rfl
  | truth b => exact hall b

theorem length_le_of_read {item : Bytes} {n : Int} (h : Number.read format item = .ok n) :
    item.length ≤ format.limit := by
  unfold Number.read at h
  split at h
  · cases h
  · next hlength => exact Nat.not_lt.mp hlength

theorem Operands.fits (h : Operands format items numbers) : Stack.Fits format.limit items := by
  induction h with
  | nil => exact Stack.fits_nil
  | cons hread _ ih => exact Stack.fits_cons.mpr ⟨length_le_of_read hread, ih⟩

/-- A value can be read back as an operand exactly if its size leaves room for the sign. -/
theorem Value.read_item_iff (value : Value) (hlimit : 1 ≤ format.limit) :
    (∃ n, Number.read format value.item = .ok n) ↔
      value.toInt.natAbs < 2 ^ (8 * format.limit - 1) := by
  rw [← Number.two_mul_lt_iff hlimit, ← Number.length_encode_le_iff, item_eq_encode,
    Number.read_encode]
  split
  · next hfits => exact ⟨fun _ => hfits, fun _ => ⟨_, rfl⟩⟩
  · next hlong => simp [hlong]

end Values

section Operation

theorem Computes.effect (h : Computes opcode numbers value)
    (hitems : Operands format items numbers) : ∃ op, Operation.ofOpcode opcode = .number op ∧
      op.Effect format items.reverse [value.item] := by
  cases h with
  | increment | decrement | negate =>
    obtain _ | ⟨hx, _ | _⟩ := hitems
    exact ⟨_, rfl, .unary hx⟩
  | @absolute a =>
    obtain _ | ⟨hx, _ | _⟩ := hitems
    refine ⟨_, rfl, ?_⟩
    rw [← Int.natCast_natAbs]
    exact .unary hx
  | isZero | isNonzero =>
    obtain _ | ⟨hx, _ | _⟩ := hitems
    exact ⟨_, rfl, .unaryTest hx⟩
  | add | subtract | minimum | maximum =>
    obtain _ | ⟨hx, _ | ⟨hy, _ | _⟩⟩ := hitems
    exact ⟨_, rfl, .binary hx hy⟩
  | equal | notEqual | less | greater | lessOrEqual | greaterOrEqual =>
    obtain _ | ⟨hx, _ | ⟨hy, _ | _⟩⟩ := hitems
    exact ⟨_, rfl, .binaryTest hx hy⟩
  | both =>
    obtain _ | ⟨hx, _ | ⟨hy, _ | _⟩⟩ := hitems
    rw [Bool.decide_and]
    exact ⟨_, rfl, .binaryTest hx hy⟩
  | either =>
    obtain _ | ⟨hx, _ | ⟨hy, _ | _⟩⟩ := hitems
    rw [Bool.decide_or]
    exact ⟨_, rfl, .binaryTest hx hy⟩
  | within =>
    obtain _ | ⟨hx, _ | ⟨hlower, _ | ⟨hupper, _ | _⟩⟩⟩ := hitems
    rw [Bool.decide_and]
    exact ⟨_, rfl, .within hx hlower hupper⟩

theorem run_equalVerify {x y : Bytes} {a b : Int} (hx : Number.read format x = .ok a)
    (hy : Number.read format y = .ok b) (rest : Stack) :
    equalVerify.run format (y :: x :: rest) =
      if a = b then .ok rest else .error .numEqualVerifyFailed := by
  have htop : Stack.takeNum (y :: x :: rest) format = .ok (b, x :: rest) :=
    Stack.takeNum_eq_ok_iff.mpr ⟨y, rfl, hy⟩
  have hnext : Stack.takeNum (x :: rest) format = .ok (a, rest) :=
    Stack.takeNum_eq_ok_iff.mpr ⟨x, rfl, hx⟩
  simp only [run, htop, bind, Except.bind, hnext]
  rfl

end Operation

end NumberOp

namespace Machine

variable {env : Env} {m : Machine} {here : Located} {base items : List Bytes} {numbers : List Int}
  {value : NumberOp.Value}

theorem stack_eq_of_items (h : m.stack.items = base ++ items) :
    m.stack = items.reverse ++ Stack.ofItems base := by
  rw [← Stack.ofItems_items m.stack, h, Stack.ofItems, List.reverse_append]
  rfl

theorem act_number {op : NumberOp} (h : Operation.ofOpcode here.instruction.opcode = .number op) :
    act env m here = Run.ofExcept (onStack (op.run env.numberFormat) m) := by
  simp only [act, h]

theorem act_of_computes (h : NumberOp.Computes here.instruction.opcode numbers value)
    (hitems : NumberOp.Operands env.numberFormat items numbers)
    (hstack : m.stack.items = base ++ items) :
    act env m here = pure { m with stack := Stack.ofItems (base ++ [value.item]) } := by
  obtain ⟨op, hop, heffect⟩ := h.effect hitems
  have hresult : [value.item] ++ Stack.ofItems base = Stack.ofItems (base ++ [value.item]) := by
    simp [Stack.ofItems]
  rw [act_number hop, onStack, stack_eq_of_items hstack,
    NumberOp.run_of_effect heffect (Stack.ofItems base), hresult]
  rfl

theorem act_equalVerify {a b : Int} (hopcode : here.instruction.opcode = 0x9d)
    (hitems : NumberOp.Operands env.numberFormat items [a, b])
    (hstack : m.stack.items = base ++ items) :
    act env m here = if a = b then pure { m with stack := Stack.ofItems base }
      else Run.fail .numEqualVerifyFailed := by
  have hop : Operation.ofOpcode here.instruction.opcode = .number .equalVerify := by
    rw [hopcode]
    rfl
  obtain _ | ⟨hx, _ | ⟨hy, _ | _⟩⟩ := hitems
  rw [act_number hop, onStack, stack_eq_of_items hstack]
  simp only [List.reverse_cons, List.reverse_nil, List.nil_append, List.cons_append]
  rw [NumberOp.run_equalVerify hx hy]
  split <;> rfl

theorem length_item_le (h : NumberOp.Computes here.instruction.opcode numbers value)
    (hitems : NumberOp.Operands env.numberFormat items numbers) :
    value.item.length ≤ env.limits.maxNumSize + 1 := by
  obtain ⟨op, -, heffect⟩ := h.effect hitems
  have htaken : Stack.Fits (env.numberFormat.limit + 1) items.reverse := by
    intro item hitem
    exact Nat.le_succ_of_le (hitems.fits item (List.mem_reverse.mp hitem))
  exact heffect.fits (Nat.lt_succ_self _) htaken value.item (List.mem_singleton.mpr rfl)

/-- Numeric opcodes are exact. On operands of whatever form they leave what lies below, followed by
the shortest form of the integer that they compute, or by one or the empty item for a predicate. The
result has one byte more than an operand at most, and is an operand again exactly if it is small
enough. The verifying comparison leaves only what lies below, or fails. -/
theorem numeric_opcodes_exact (env : Env) (m : Machine) (here : Located) (base items : List Bytes)
    (numbers : List Int) (hstack : m.stack.items = base ++ items)
    (hitems : NumberOp.Operands env.numberFormat items numbers) :
    (∀ value, NumberOp.Computes here.instruction.opcode numbers value →
      act env m here = pure { m with stack := Stack.ofItems (base ++ [value.item]) } ∧
      (Number.decode value.item = value.toInt ∧ Number.isMinimal value.item = true ∧
        value.item.length ≤ env.limits.maxNumSize + 1) ∧
      (1 ≤ env.limits.maxNumSize →
        ((∃ n, Number.read env.numberFormat value.item = .ok n) ↔
          value.toInt.natAbs < 2 ^ (8 * env.limits.maxNumSize - 1)))) ∧
    ∀ a b, here.instruction.opcode = 0x9d → numbers = [a, b] →
      if a = b then act env m here = pure { m with stack := Stack.ofItems base }
      else ∃ fault, act env m here = Run.fail fault ∧ fault.code = .numEqualVerify := by
  constructor
  · intro value hvalue
    refine ⟨act_of_computes hvalue hitems hstack, ⟨?_, ?_, length_item_le hvalue hitems⟩, ?_⟩
    · rw [value.item_eq_encode, Number.decode_encode]
    · rw [value.item_eq_encode]
      exact Number.isMinimal_encode _
    · intro hlimit
      exact value.read_item_iff hlimit
  · rintro a b hopcode rfl
    have hact := act_equalVerify hopcode hitems hstack
    split
    · next hsame => rw [hact, if_pos hsame]
    · next hother => exact ⟨_, by rw [hact, if_neg hother], rfl⟩

/-- The largest operand of four bytes twice, whose sum is no operand, and the negative zero, which
is zero. -/
theorem numeric_opcodes_exact_largest :
    let env : Env := { flags := .empty, script := [] }
    let largest : Bytes := [0xff, 0xff, 0xff, 0x7f]
    let m := start env (Stack.ofItems [[9], largest, largest])
    let zeros := start env (Stack.ofItems [[9], [0x80], []])
    (act env m ⟨.ofOpcode 0x93, []⟩ =
        pure { m with stack := Stack.ofItems [[9], [0xfe, 0xff, 0xff, 0xff, 0x00]] } ∧
      ¬∃ n, Number.read env.numberFormat [0xfe, 0xff, 0xff, 0xff, 0x00] = .ok n) ∧
    act env zeros ⟨.ofOpcode 0x9d, []⟩ = pure { zeros with stack := Stack.ofItems [[9]] } := by
  intro env largest m zeros
  have hlargest : Number.read env.numberFormat largest = .ok 0x7fffffff := by decide +kernel
  have hnegative : Number.read env.numberFormat [0x80] = .ok 0 := by decide +kernel
  have hzero : Number.read env.numberFormat [] = .ok 0 := by decide +kernel
  have hsum : NumberOp.Value.item (.number (0x7fffffff + 0x7fffffff)) =
      [0xfe, 0xff, 0xff, 0xff, 0x00] := by
    decide +kernel
  obtain ⟨hcomputes, -⟩ := numeric_opcodes_exact env m ⟨.ofOpcode 0x93, []⟩ [[9]]
    [largest, largest] [0x7fffffff, 0x7fffffff] rfl (.cons hlargest (.cons hlargest .nil))
  obtain ⟨hact, -, hoperand⟩ := hcomputes _ .add
  obtain ⟨-, hverify⟩ := numeric_opcodes_exact env zeros ⟨.ofOpcode 0x9d, []⟩ [[9]]
    [[0x80], []] [0, 0] rfl (.cons hnegative (.cons hzero .nil))
  rw [hsum] at hact hoperand
  refine ⟨⟨hact, ?_⟩, hverify 0 0 rfl rfl⟩
  rw [hoperand (by decide)]
  decide

end Machine

end CoinScript
