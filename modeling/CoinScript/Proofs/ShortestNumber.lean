import CoinScript.Proofs.NumberWidth
import Mathlib.Data.List.Basic
import Mathlib.Tactic.Ring

/-! # Shortest forms of numbers

A number is written as its magnitude, without zero bytes at the top, with the sign put into the
last bit. Reading takes the sign off again, so each integer is read back from what was written
for it, and what is written is exactly what passes for the shortest form. The two statements
together make integers and shortest forms correspond, `k` bytes being enough exactly for the
integers whose size is below `2 ^ (8 * k - 1)`.
-/
namespace CoinScript

namespace Bytes

/-- No zero byte stands at the top. -/
def Trimmed (s : Bytes) : Prop := s.getLast? ≠ some 0

theorem toNatLE_concat (init : Bytes) (top : UInt8) :
    toNatLE (init ++ [top]) = toNatLE init + 256 ^ init.length * top.toNat := by
  induction init with
  | nil => simp [toNatLE]
  | cons b init ih =>
    rw [List.cons_append, toNatLE, ih, toNatLE, List.length_cons, Nat.pow_succ]
    ring

theorem toNatLE_ofNat (n : Nat) : toNatLE (ofNat n) = n := by
  fun_induction ofNat n with
  | case1 => rfl
  | case2 n _ ih =>
    rw [toNatLE, ih, UInt8.toNat_ofNat']
    omega

theorem trimmed_cons {b c : UInt8} {s : Bytes} : Trimmed (b :: c :: s) ↔ Trimmed (c :: s) := by
  simp [Trimmed]

theorem trimmed_concat {init : Bytes} {top : UInt8} : Trimmed (init ++ [top]) ↔ top ≠ 0 := by
  simp [Trimmed]

theorem trimmed_ofNat (n : Nat) : Trimmed (ofNat n) := by
  fun_induction ofNat n with
  | case1 => simp [Trimmed]
  | case2 n hn ih =>
    by_cases hsmall : n < 256
    · rw [Nat.div_eq_of_lt hsmall, ofNat, if_pos rfl]
      have hbyte : UInt8.ofNat n ≠ 0 := by
        intro hzero
        have hvalue := congrArg UInt8.toNat hzero
        rw [UInt8.toNat_ofNat', UInt8.toNat_zero] at hvalue
        omega
      simpa [Trimmed] using hbyte
    · have hhigh : n / 256 ≠ 0 := by omega
      rw [Number.ofNat_of_pos hhigh] at ih ⊢
      exact trimmed_cons.mpr ih

theorem ofNat_toNatLE {s : Bytes} (h : Trimmed s) : ofNat (toNatLE s) = s := by
  induction s with
  | nil => rw [toNatLE, ofNat, if_pos rfl]
  | cons b s ih =>
    have hb := b.toNat_lt
    have hlow : UInt8.ofNat (b.toNat + 256 * toNatLE s) = b := by
      apply UInt8.toNat_inj.mp
      simp
    have hrest : (b.toNat + 256 * toNatLE s) / 256 = toNatLE s := by omega
    have hs : ofNat (toNatLE s) = s := by
      cases s with
      | nil => rw [toNatLE, ofNat, if_pos rfl]
      | cons c s => exact ih (trimmed_cons.mp h)
    have hne : b.toNat + 256 * toNatLE s ≠ 0 := by
      intro hzero
      have hnone : s = [] := by
        have hvalue : toNatLE s = 0 := by omega
        rw [← hs, hvalue, ofNat, if_pos rfl]
      have hbyte : b = 0 := UInt8.toNat_inj.mp (by rw [UInt8.toNat_zero]; omega)
      simp [Trimmed, hnone, hbyte] at h
    rw [toNatLE, Number.ofNat_of_pos hne, hlow, hrest, hs]

end Bytes

namespace Number

open Bytes (Trimmed)

/-- The sign as the last bit of a byte. -/
def signByte (negative : Bool) : UInt8 := if negative then 0x80 else 0

section LastByte

variable (init : Bytes) (top : UInt8)

theorem withSign_concat (negative : Bool) : withSign negative (init ++ [top]) =
    init ++ if top < 0x80 then [top + signByte negative] else [top, signByte negative] := by
  induction init with
  | nil => rfl
  | cons b init ih =>
    obtain ⟨c, rest, hrest⟩ : ∃ c rest, init ++ [top] = c :: rest :=
      List.exists_cons_of_ne_nil (by simp)
    rw [List.cons_append, List.cons_append, ← ih, hrest]
    rfl

theorem magnitude_concat :
    magnitude (init ++ [top]) = Bytes.toNatLE init + 256 ^ init.length * (top.toNat % 128) := by
  induction init with
  | nil => simp [magnitude, Bytes.toNatLE]
  | cons b init ih =>
    obtain ⟨c, rest, hrest⟩ : ∃ c rest, init ++ [top] = c :: rest :=
      List.exists_cons_of_ne_nil (by simp)
    rw [List.cons_append, hrest, magnitude_cons, ← hrest, ih, Bytes.toNatLE, List.length_cons,
      Nat.pow_succ]
    ring

theorem isNegative_concat : isNegative (init ++ [top]) = decide (128 ≤ top.toNat) := by
  simp [isNegative, UInt8.le_iff_toNat_le]

/-- The last byte is needed for its own bits, or for the sign after a byte that is full. -/
theorem isMinimal_concat : isMinimal (init ++ [top]) = true ↔
    top % 0x80 ≠ 0 ∨ ∃ low next, init = low ++ [next] ∧ 0x80 ≤ next := by
  rcases init.eq_nil_or_concat' with rfl | ⟨low, next, rfl⟩
  · simp [isMinimal]
  · have hlast : (∃ rest last, low ++ [next] = rest ++ [last] ∧ 0x80 ≤ last) ↔ 0x80 ≤ next := by
      constructor
      · rintro ⟨rest, last, heq, hlast⟩
        obtain ⟨-, hnext⟩ := List.append_inj' heq rfl
        cases hnext
        exact hlast
      · exact fun hnext => ⟨low, next, rfl, hnext⟩
    rw [hlast]
    simp [isMinimal]

end LastByte

section Sign

variable {s : Bytes} {top : UInt8} (negative : Bool)

theorem toNat_signByte : (signByte negative).toNat = if negative then 128 else 0 := by
  cases negative <;> rfl

theorem toNat_add_signByte (h : top < 0x80) :
    (top + signByte negative).toNat = top.toNat + if negative then 128 else 0 := by
  have htop : top.toNat < 128 := h
  rw [UInt8.toNat_add, toNat_signByte]
  cases negative <;> simp only [Bool.false_eq_true, ↓reduceIte] <;> omega

theorem mod_add_signByte (top : UInt8) : top % 0x80 + signByte (decide (0x80 ≤ top)) = top := by
  have htop := top.toNat_lt
  apply UInt8.toNat_inj.mp
  rw [UInt8.toNat_add, UInt8.toNat_mod, toNat_signByte]
  simp only [decide_eq_true_eq, UInt8.le_iff_toNat_le, UInt8.reduceToNat]
  split <;> omega

theorem signByte_of_mod_eq_zero (h : top % 0x80 = 0) : signByte (decide (0x80 ≤ top)) = top := by
  have hsum := mod_add_signByte top
  rwa [h, UInt8.zero_add] at hsum

theorem decode_withSign (s : Bytes) : decode (withSign negative s) =
    if negative then -(Bytes.toNatLE s : Int) else Bytes.toNatLE s := by
  rcases s.eq_nil_or_concat' with rfl | ⟨init, top, rfl⟩
  · simp [withSign, decode, isNegative, magnitude, Bytes.toNatLE]
  suffices hparts : isNegative (withSign negative (init ++ [top])) = negative ∧
      magnitude (withSign negative (init ++ [top])) = Bytes.toNatLE (init ++ [top]) by
    rw [decode, hparts.1, hparts.2]
  rw [withSign_concat]
  split
  · next hroom =>
    have htop : top.toNat < 128 := hroom
    have hvalue := toNat_add_signByte negative hroom
    rw [isNegative_concat, magnitude_concat, Bytes.toNatLE_concat, hvalue]
    constructor
    · cases negative with
      | true => simp
      | false => simpa using htop
    · congr 2
      split <;> omega
  · rw [List.append_cons, isNegative_concat, magnitude_concat, toNat_signByte]
    cases negative <;> simp

theorem isMinimal_withSign (h : Trimmed s) : isMinimal (withSign negative s) = true := by
  rcases s.eq_nil_or_concat' with rfl | ⟨init, top, rfl⟩
  · rfl
  rw [withSign_concat]
  split
  · next hroom =>
    rw [isMinimal_concat]
    left
    intro hzero
    have htop : top.toNat < 128 := hroom
    have hvalue := congrArg UInt8.toNat hzero
    rw [UInt8.toNat_mod, toNat_add_signByte negative hroom] at hvalue
    have hbyte : top = 0 := by
      apply UInt8.toNat_inj.mp
      simp only [UInt8.reduceToNat] at hvalue ⊢
      split at hvalue <;> omega
    exact Bytes.trimmed_concat.mp h hbyte
  · next hfull =>
    rw [List.append_cons, isMinimal_concat]
    exact .inr ⟨init, top, rfl, UInt8.not_lt.mp hfull⟩

/-- Every shortest form is a magnitude with a sign put into it. -/
theorem exists_withSign_of_isMinimal (h : isMinimal s = true) :
    ∃ negative size, Trimmed size ∧ s = withSign negative size := by
  rcases s.eq_nil_or_concat' with rfl | ⟨init, top, rfl⟩
  · exact ⟨false, [], by simp [Trimmed], rfl⟩
  refine ⟨decide (0x80 ≤ top), ?_⟩
  by_cases hbits : top % 0x80 = 0
  · rcases (isMinimal_concat init top).mp h with hbits' | ⟨low, next, rfl, hnext⟩
    · exact absurd hbits hbits'
    refine ⟨low ++ [next], ?_, ?_⟩
    · rw [Bytes.trimmed_concat]
      rintro rfl
      exact absurd hnext (by decide)
    · rw [withSign_concat, if_neg (UInt8.not_lt.mpr hnext), signByte_of_mod_eq_zero hbits]
      simp
  · refine ⟨init ++ [top % 0x80], Bytes.trimmed_concat.mpr hbits, ?_⟩
    have hroom : top % 0x80 < 0x80 := UInt8.mod_lt _ (by decide)
    rw [withSign_concat, if_pos hroom, mod_add_signByte]

end Sign

section Correspondence

theorem isMinimal_encode (n : Int) : isMinimal (encode n) = true :=
  isMinimal_withSign _ (Bytes.trimmed_ofNat _)

theorem decode_encode (n : Int) : decode (encode n) = n := by
  rw [encode, decode_withSign, Bytes.toNatLE_ofNat]
  simp only [decide_eq_true_eq]
  split <;> omega

theorem encode_decode {s : Bytes} (h : isMinimal s = true) : encode (decode s) = s := by
  obtain ⟨negative, size, hsize, rfl⟩ := exists_withSign_of_isMinimal h
  have hback := Bytes.ofNat_toNatLE hsize
  rw [decode_withSign]
  generalize Bytes.toNatLE size = value at hback ⊢
  subst hback
  by_cases hzero : value = 0
  · simp [hzero, encode, Bytes.ofNat, withSign]
  · have hsign : decide ((if negative = true then -(value : Int) else value) < 0) = negative := by
      cases negative with
      | true => simpa using Nat.pos_of_ne_zero hzero
      | false => simp
    have habs : (if negative = true then -(value : Int) else value).natAbs = value := by
      split <;> simp
    rw [encode, hsign, habs]

theorem encode_decode_iff (s : Bytes) : encode (decode s) = s ↔ isMinimal s = true := by
  constructor
  · intro h
    rw [← h]
    exact isMinimal_encode _
  · exact encode_decode

theorem read_encode (n : Int) (format : Format) : read format (encode n) =
    if (encode n).length ≤ format.limit then .ok n
    else .error (.longNumber (encode n) format.limit) := by
  unfold read
  by_cases hlength : format.limit < (encode n).length
  · rw [if_pos hlength, if_neg (Nat.not_le.mpr hlength)]
  · simp [hlength, Nat.not_lt.mp hlength, isMinimal_encode, decode_encode]

theorem two_mul_lt_iff {k : Nat} (hk : 1 ≤ k) (n : Nat) :
    2 * n < 256 ^ k ↔ n < 2 ^ (8 * k - 1) := by
  have hpower : 256 ^ k = 2 * 2 ^ (8 * k - 1) := by
    rw [← Nat.pow_succ', show (256 : Nat) = 2 ^ 8 by rfl, ← Nat.pow_mul]
    congr 1
    omega
  omega

/-- Integers and shortest forms correspond. A number is read back from what is written for it
under every limit that admits it; a string passes for a shortest form exactly if it is what is
written for the number it denotes; and `k` bytes are enough exactly for the integers of a size
below `2 ^ (8 * k - 1)`, so that no others are read back as operands of `k` bytes. -/
theorem shortest_forms_of_integers :
    (∀ (n : Int) (k : Nat), (encode n).length ≤ k → read ⟨k, true⟩ (encode n) = .ok n) ∧
    (∀ s : Bytes, ∃ n, read ⟨s.length, false⟩ s = .ok n ∧
      (checkMinimal s = .ok () ↔ encode n = s)) ∧
    (∀ (n : Int) (k : Nat), 1 ≤ k → ((encode n).length ≤ k ↔ n.natAbs < 2 ^ (8 * k - 1))) ∧
    ∀ (n : Int) (k : Nat) (minimal : Bool), 1 ≤ k → read ⟨k, minimal⟩ (encode n) =
      if n.natAbs < 2 ^ (8 * k - 1) then .ok n else .error (.longNumber (encode n) k) := by
  have hwidth (n : Int) {k : Nat} (hk : 1 ≤ k) :
      (encode n).length ≤ k ↔ n.natAbs < 2 ^ (8 * k - 1) := by
    rw [length_encode_le_iff, two_mul_lt_iff hk]
  refine ⟨?_, ?_, fun n k hk => hwidth n hk, ?_⟩
  · intro n k hlength
    rw [read_encode, if_pos hlength]
  · intro s
    refine ⟨decode s, by simp [read], ?_⟩
    rw [encode_decode_iff, checkMinimal]
    split <;> simp_all
  · intro n k minimal hk
    simp only [read_encode, hwidth n hk]

/-- The least number of one byte, its form with a byte too many, and the first number above zero
that takes a byte for the sign alone. -/
theorem shortest_forms_around_sign_bit :
    read ⟨1, true⟩ (encode (-127)) = .ok (-127) ∧ encode (-127) = [0xff] ∧
    checkMinimal [0xff] = .ok () ∧ checkMinimal [0x7f, 0x80] = .error (.paddedNumber [0x7f, 0x80]) ∧
    read ⟨1, false⟩ (encode 128) = .error (.longNumber [0x80, 0x00] 1) := by
  obtain ⟨hread, hminimal, -, hrange⟩ := shortest_forms_of_integers
  have hlow : encode (-127) = [0xff] := by decide +kernel
  have hhigh : encode 128 = [0x80, 0x00] := by decide +kernel
  refine ⟨hread (-127) 1 (by rw [hlow]; decide), hlow, ?_, rfl, ?_⟩
  · obtain ⟨n, hn, hiff⟩ := hminimal [0xff]
    exact hiff.mpr (by cases hn; exact hlow)
  · rw [hrange 128 1 false (by decide), hhigh]
    decide

end Correspondence

end Number

end CoinScript
