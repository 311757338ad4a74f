import CoinScript.Proofs.ShortestNumber

/-! # Numbers most significant byte first

Zero bytes in front do not change the value of a big-endian string. Without them its length is
the least that holds the value, so a number is written in a given width by its shortest digits
with zeros in front.
-/
namespace CoinScript.Bytes

variable {s zeros digits : Bytes}

theorem toNatBE_cons (b : UInt8) (s : Bytes) :
    toNatBE (b :: s) = b.toNat * 256 ^ s.length + toNatBE s := by
  rw [toNatBE, List.reverse_cons, toNatLE_concat, List.length_reverse, toNatBE]
  ring

theorem ofNatBE_toNatBE (s : Bytes) : ofNatBE s.length (toNatBE s) = s := by
  rw [ofNatBE, toNatBE, ← List.length_reverse, ofNatLE_toNatLE, List.reverse_reverse]

theorem toNatBE_zeros_append (h : ∀ b ∈ zeros, b = 0) (s : Bytes) :
    toNatBE (zeros ++ s) = toNatBE s := by
  induction zeros with
  | nil => rfl
  | cons b zeros ih =>
    obtain ⟨rfl, hrest⟩ := List.forall_mem_cons.mp h
    rw [List.cons_append, toNatBE_cons, ih hrest, UInt8.toNat_zero, Nat.zero_mul, Nat.zero_add]

section DropZeros

theorem exists_zeros_append (s : Bytes) :
    ∃ zeros, (∀ b ∈ zeros, b = 0) ∧ s = zeros ++ dropZeros s := by
  refine ⟨s.takeWhile (· == 0), fun b hb => ?_, List.takeWhile_append_dropWhile.symm⟩
  exact eq_of_beq (List.all_eq_true.mp List.all_takeWhile b hb)

theorem dropZeros_cons_of_ne {b : UInt8} (h : b ≠ 0) (s : Bytes) :
    dropZeros (b :: s) = b :: s := by
  simp [dropZeros, h]

theorem head?_dropZeros (s : Bytes) : (dropZeros s).head? ≠ some 0 := by
  intro h
  have hnot := List.head?_dropWhile_not (· == 0) s
  have hdrop : (s.dropWhile (· == 0)).head? = some 0 := h
  simp [hdrop] at hnot

theorem dropZeros_zeros_append (hzeros : ∀ b ∈ zeros, b = 0) (hdigits : digits.head? ≠ some 0) :
    dropZeros (zeros ++ digits) = digits := by
  induction zeros with
  | nil =>
    cases digits with
    | nil => rfl
    | cons b digits =>
      exact dropZeros_cons_of_ne (by simpa using hdigits) digits
  | cons b zeros ih =>
    obtain ⟨rfl, hrest⟩ := List.forall_mem_cons.mp hzeros
    exact ih hrest

theorem toNatBE_dropZeros (s : Bytes) : toNatBE (dropZeros s) = toNatBE s := by
  obtain ⟨zeros, hzeros, hs⟩ := exists_zeros_append s
  rw [hs, toNatBE_zeros_append hzeros, ← hs]

/-- Digits without a zero in front have as many places as their value needs. -/
theorem length_le_of_toNatBE_lt {width : Nat} (hdigits : digits.head? ≠ some 0)
    (h : toNatBE digits < 256 ^ width) : digits.length ≤ width := by
  cases digits with
  | nil => exact Nat.zero_le _
  | cons b digits =>
    have hb : b ≠ 0 := by simpa using hdigits
    have hpos : 0 < b.toNat := Nat.pos_of_ne_zero fun hzero => hb (UInt8.toNat_inj.mp hzero)
    rw [toNatBE_cons] at h
    have hplace : 256 ^ digits.length ≤ b.toNat * 256 ^ digits.length :=
      Nat.le_mul_of_pos_left _ hpos
    have hpow : 256 ^ digits.length < 256 ^ width := by omega
    exact (Nat.pow_lt_pow_iff_right (by decide)).mp hpow

/-- A number is written in a wider field by its digits with zeros in front. -/
theorem ofNatBE_eq_zeros_append {width : Nat} (h : digits.length ≤ width) :
    ofNatBE width (toNatBE digits) = List.replicate (width - digits.length) 0 ++ digits := by
  have hlength : (List.replicate (width - digits.length) 0 ++ digits).length = width := by
    rw [List.length_append, List.length_replicate]
    omega
  have hvalue : toNatBE (List.replicate (width - digits.length) 0 ++ digits) = toNatBE digits :=
    toNatBE_zeros_append (fun b hb => List.eq_of_mem_replicate hb) digits
  have hpadded := ofNatBE_toNatBE (List.replicate (width - digits.length) 0 ++ digits)
  rwa [hlength, hvalue] at hpadded

/-- The digits of a number do not depend on the width that it is written in. -/
theorem dropZeros_ofNatBE {width : Nat} (h : toNatBE s < 256 ^ width) :
    dropZeros (ofNatBE width (toNatBE s)) = dropZeros s := by
  rw [← toNatBE_dropZeros] at h ⊢
  have hdigits := head?_dropZeros s
  rw [ofNatBE_eq_zeros_append (length_le_of_toNatBE_lt hdigits h)]
  exact dropZeros_zeros_append (fun b hb => List.eq_of_mem_replicate hb) hdigits

end DropZeros

end CoinScript.Bytes
