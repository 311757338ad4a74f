import CoinScript.Bytes
import Mathlib.Algebra.Ring.Nat

/-! # Values of byte strings

Writing a number in a fixed width and reading it back keeps it modulo that width, in
either byte order.
-/
namespace CoinScript.Bytes

theorem toNatLE_ofNatLE (width n : Nat) : toNatLE (ofNatLE width n) = n % 256 ^ width := by
  induction width generalizing n with
  | zero => simp [ofNatLE, toNatLE, Nat.mod_one]
  | succ width ih =>
    have low : (UInt8.ofNat n).toNat = n % 256 := by simp
    rw [ofNatLE, toNatLE, ih, low, Nat.pow_succ, Nat.mul_comm (256 ^ width) 256, Nat.mod_mul]

theorem toNatBE_ofNatBE (width n : Nat) : toNatBE (ofNatBE width n) = n % 256 ^ width := by
  simp [toNatBE, ofNatBE, toNatLE_ofNatLE]

theorem ofNatLE_toNatLE (s : Bytes) : ofNatLE s.length (toNatLE s) = s := by
  induction s with
  | nil => rfl
  | cons b s ih =>
    have hlow : UInt8.ofNat (b.toNat + 256 * toNatLE s) = b := by
      apply UInt8.toNat_inj.mp
      simp
    have hrest : (b.toNat + 256 * toNatLE s) / 256 = toNatLE s := by
      have hb := b.toNat_lt
      omega
    rw [List.length_cons, ofNatLE, toNatLE, hlow, hrest, ih]

theorem ofNatLE_mod (width n : Nat) : ofNatLE width (n % 256 ^ width) = ofNatLE width n := by
  have hback := ofNatLE_toNatLE (ofNatLE width n)
  rwa [length_ofNatLE, toNatLE_ofNatLE] at hback

theorem toNatLE_lt (s : Bytes) : toNatLE s < 256 ^ s.length := by
  induction s with
  | nil => simp [toNatLE]
  | cons b s ih =>
    have hb := b.toNat_lt
    simp only [toNatLE, List.length_cons, Nat.pow_succ]
    omega

theorem split?_eq_none_iff {n : Nat} {s : Bytes} : split? n s = none ↔ s.length < n := by
  induction n generalizing s with
  | zero => simp [split?]
  | succ n ih =>
    cases s with
    | nil => simp [split?]
    | cons b s => simp [split?, ih]

end CoinScript.Bytes
