import CoinScript.Bytes.Lemmas
import CoinScript.Operation.Number

/-! # Widths of numbers

The sign takes one bit of a number, so `k` bytes hold the integers whose doubled size is below
`256 ^ k`, and no others. An operand that is read under a length limit is such an integer, and
an arithmetic result of operands of that kind has one byte more at most.
-/
namespace CoinScript.Number

section Reading

theorem magnitude_cons (b c : UInt8) (rest : Bytes) :
    magnitude (b :: c :: rest) = b.toNat + 256 * magnitude (c :: rest) := rfl

theorem magnitude_lt (s : Bytes) : 2 * magnitude s < 256 ^ s.length := by
  induction s with
  | nil => simp [magnitude]
  | cons b rest ih =>
    cases rest with
    | nil =>
      have htop : b.toNat % 128 < 128 := Nat.mod_lt _ (by omega)
      simp only [magnitude, List.length_singleton, Nat.pow_one]
      omega
    | cons c rest =>
      have hb := b.toNat_lt
      simp only [List.length_cons, Nat.pow_succ] at ih ⊢
      rw [magnitude_cons]
      omega

theorem natAbs_decode (s : Bytes) : (decode s).natAbs = magnitude s := by
  unfold decode
  split <;> simp

theorem natAbs_decode_lt (s : Bytes) : 2 * (decode s).natAbs < 256 ^ s.length := by
  rw [natAbs_decode]
  exact magnitude_lt s

theorem natAbs_read_lt {format : Format} {s : Bytes} {n : Int} (h : read format s = .ok n) :
    2 * n.natAbs < 256 ^ format.limit := by
  unfold read at h
  split at h
  · cases h
  next hlength =>
  split at h
  · cases h
  cases h
  have hpow : 256 ^ s.length ≤ 256 ^ format.limit :=
    Nat.pow_le_pow_right (by omega) (Nat.not_lt.mp hlength)
  exact Nat.lt_of_lt_of_le (natAbs_decode_lt s) hpow

end Reading

section Writing

theorem length_withSign_singleton (negative : Bool) (top : UInt8) :
    (withSign negative [top]).length = if top.toNat < 128 then 1 else 2 := by
  have htop : top < 0x80 ↔ top.toNat < 128 := Iff.rfl
  simp only [withSign, htop]
  split <;> rfl

theorem length_withSign_cons (negative : Bool) (b c : UInt8) (rest : Bytes) :
    (withSign negative (b :: c :: rest)).length = (withSign negative (c :: rest)).length + 1 := rfl

theorem ofNat_of_pos {n : Nat} (h : n ≠ 0) :
    Bytes.ofNat n = UInt8.ofNat n :: Bytes.ofNat (n / 256) := by
  rw [Bytes.ofNat, if_neg h]

theorem length_withSign_ofNat_le_iff (negative : Bool) (n k : Nat) :
    (withSign negative (Bytes.ofNat n)).length ≤ k ↔ 2 * n < 256 ^ k := by
  induction k generalizing n with
  | zero =>
    by_cases hn : n = 0
    · simp [hn, Bytes.ofNat, withSign]
    · have hne : withSign negative (Bytes.ofNat n) ≠ [] := by
        rw [ofNat_of_pos hn]
        cases Bytes.ofNat (n / 256) with
        | nil => grind [withSign]
        | cons => simp [withSign]
      have hlength := List.length_pos_iff.mpr hne
      simp only [Nat.pow_zero]
      omega
  | succ k ih =>
    have hpos : 0 < 256 ^ k := Nat.pow_pos (by omega)
    rw [Nat.pow_succ]
    by_cases hn : n = 0
    · have hempty : withSign negative (Bytes.ofNat n) = [] := by simp [hn, Bytes.ofNat, withSign]
      rw [hempty, List.length_nil]
      omega
    · rw [ofNat_of_pos hn]
      -- A power of 256 is one or even, so that doubling loses nothing.
      have hpower : k = 0 ∧ 256 ^ k = 1 ∨ ∃ half, 0 < k ∧ 256 ^ k = 256 * half := by
        cases k with
        | zero => exact .inl ⟨rfl, rfl⟩
        | succ k => exact .inr ⟨256 ^ k, Nat.succ_pos k, by rw [Nat.pow_succ, Nat.mul_comm]⟩
      by_cases hsmall : n < 256
      · have hnone : Bytes.ofNat (n / 256) = [] := by
          rw [Nat.div_eq_of_lt hsmall, Bytes.ofNat, if_pos rfl]
        have hvalue : (UInt8.ofNat n).toNat = n := by
          rw [UInt8.toNat_ofNat', Nat.mod_eq_of_lt hsmall]
        rw [hnone, length_withSign_singleton, hvalue]
        rcases hpower with ⟨rfl, hpower⟩ | ⟨half, hk, hpower⟩ <;> split <;> omega
      · have hhigh : n / 256 ≠ 0 := by omega
        have hrest := ih (n / 256)
        rw [ofNat_of_pos hhigh] at hrest ⊢
        rw [length_withSign_cons]
        rcases hpower with ⟨rfl, hpower⟩ | ⟨half, hk, hpower⟩ <;> omega

/-- The exact range of the integers that fit `k` bytes. -/
theorem length_encode_le_iff (n : Int) (k : Nat) :
    (encode n).length ≤ k ↔ 2 * n.natAbs < 256 ^ k := length_withSign_ofNat_le_iff _ _ _

theorem length_encode_small {n : Int} (h : n.natAbs ≤ 16) : (encode n).length ≤ 1 := by
  rw [length_encode_le_iff]
  omega

end Writing

section Results

variable {k : Nat} {a b : Int}

theorem length_encode_unary_le (op : UnaryOp) (ha : 2 * a.natAbs < 256 ^ k) :
    (encode (op.eval a)).length ≤ k + 1 := by
  rw [length_encode_le_iff, Nat.pow_succ]
  cases op <;> simp only [UnaryOp.eval] <;> omega

theorem length_encode_binary_le (op : BinaryOp) (ha : 2 * a.natAbs < 256 ^ k)
    (hb : 2 * b.natAbs < 256 ^ k) : (encode (op.eval a b)).length ≤ k + 1 := by
  rw [length_encode_le_iff, Nat.pow_succ]
  cases op <;> simp only [BinaryOp.eval] <;> omega

end Results

end CoinScript.Number
