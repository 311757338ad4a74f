import CoinScript.Proofs.LowS

/-! # Written signatures are read back

Any two words can be written as a signature, scalars or not. What is written has the strict form,
and the lax reader finds in it the first word and the low one of the second and its complement. Only
where one of these is not below the group order does it find the zero signature.
-/
namespace CoinScript.Signature

section Integers

variable (w : BitVec 256)

theorem toNatBE_wordBytes : Bytes.toNatBE (wordBytes w) = w.toNat := by
  have hw := w.isLt
  rw [wordBytes, Bytes.toNatBE_ofNatBE]
  omega

/-- What is written for a word: its digits, with a zero in front where there is none or where the
first one has the top bit set. -/
theorem derInteger_cases : ∃ zeros, derInteger w = zeros ++ Bytes.dropZeros (wordBytes w) ∧
    (∀ b ∈ zeros, b = 0) ∧ zeros.length ≤ 1 ∧ ShortestInteger (derInteger w) := by
  have hhead := Bytes.head?_dropZeros (wordBytes w)
  unfold derInteger
  split
  · next hnone =>
    rw [hnone]
    exact ⟨[0], rfl, by simp, by simp, isDerInteger_iff.mp rfl⟩
  · next top rest hdigits =>
    rw [hdigits] at hhead ⊢
    have htop : top ≠ 0 := by simpa using hhead
    split
    · next hroom =>
      refine ⟨[], rfl, by simp, by simp, ?_⟩
      exact ⟨by simp, by simpa using hroom, by simp [htop]⟩
    · next hfull =>
      refine ⟨[0], rfl, by simp, by simp, isDerInteger_iff.mp ?_⟩
      simpa [isDerInteger] using UInt8.not_lt.mp hfull

theorem shortestInteger_derInteger : ShortestInteger (derInteger w) := by
  obtain ⟨-, -, -, -, hshortest⟩ := derInteger_cases w
  exact hshortest

theorem toNatBE_derInteger : Bytes.toNatBE (derInteger w) = w.toNat := by
  obtain ⟨zeros, hdigits, hzeros, -, -⟩ := derInteger_cases w
  rw [hdigits, Bytes.toNatBE_zeros_append hzeros, Bytes.toNatBE_dropZeros, toNatBE_wordBytes]

theorem length_derInteger_le : (derInteger w).length ≤ 33 := by
  obtain ⟨zeros, hdigits, -, hzeros, -⟩ := derInteger_cases w
  have hdropped : (Bytes.dropZeros (wordBytes w)).length ≤ 32 := by
    have hle : (Bytes.dropZeros (wordBytes w)).length ≤ (wordBytes w).length :=
      (List.dropWhile_suffix _).length_le
    rwa [wordBytes, Bytes.length_ofNatBE] at hle
  rw [hdigits, List.length_append]
  omega

end Integers

section Sequence

variable (sig : Signature)

theorem toDer_eq_derForm :
    sig.toDer = derForm (derInteger sig.r) (derInteger sig.normalizeS.s) := by
  simp [toDer, derForm]

theorem length_toDer_le : sig.toDer.length ≤ 72 := by
  have hr := length_derInteger_le sig.r
  have hs := length_derInteger_le sig.normalizeS.s
  rw [toDer_eq_derForm, length_derForm]
  omega

theorem isStrictDer_toDer (hashType : UInt8) : isStrictDer (sig.toDer ++ [hashType]) = true := by
  have hlength := length_toDer_le sig
  rw [toDer_eq_derForm] at hlength ⊢
  apply isStrictDer_derForm _ (shortestInteger_derInteger _) (shortestInteger_derInteger _)
  rw [List.length_append, List.length_singleton]
  omega

theorem ofDerLax_toDer : ofDerLax sig.toDer = .ok
    (if sig.r.toNat < Curve.order ∧ sig.normalizeS.s.toNat < Curve.order then sig.normalizeS
      else ofNats 0 0) := by
  have hlength := length_toDer_le sig
  rw [toDer_eq_derForm] at hlength ⊢
  have hback : ofNats sig.r.toNat sig.normalizeS.s.toNat = sig.normalizeS := by
    rw [ofNats, BitVec.ofNat_toNat, BitVec.ofNat_toNat, BitVec.setWidth_eq, BitVec.setWidth_eq,
      ← normalizeS_r]
  rw [ofDerLax_derForm hlength, ofPayloads, toNatBE_derInteger, toNatBE_derInteger, hback]

end Sequence

/-- The value that is written for an `s`: a low one as it is, and for a high one the group order
minus it, modulo `2 ^ 256`. -/
def lowValue (s : Nat) : Nat :=
  if s ≤ Curve.order / 2 then s else (((Curve.order : Int) - s) % 2 ^ 256).toNat

theorem toNat_normalizeS (sig : Signature) : sig.normalizeS.s.toNat = lowValue sig.s.toNat := by
  unfold lowValue
  split
  · next hlow => rw [normalizeS_of_low (isLowS_iff.mpr hlow)]
  · next hhigh =>
    rw [normalizeS_of_high (mt isLowS_iff.mp hhigh), flipS_s, ← toNat_complement, Int.toNat_natCast]

/-- Two words of 32 bytes, whatever they are, are written in the strict form and read back by the
lax reader: the first as it was, the second as its low value, and both as zero if one of these is
not below the group order. So a signature of two words below the order is read back normalized. -/
theorem written_signature_read_back (r s : Bytes) (hashType : UInt8) (hr : r.length = 32)
    (hs : s.length = 32) :
    isStrictDer ((ofWordBytes r s).toDer ++ [hashType]) = true ∧
    (∃ sig, ofDerLax (ofWordBytes r s).toDer = .ok sig ∧
      if Bytes.toNatBE r < Curve.order ∧ lowValue (Bytes.toNatBE s) < Curve.order then
        wordBytes sig.r = r ∧ wordBytes sig.s = Bytes.ofNatBE 32 (lowValue (Bytes.toNatBE s))
      else wordBytes sig.r = List.replicate 32 0 ∧ wordBytes sig.s = List.replicate 32 0) ∧
    (Bytes.toNatBE r < Curve.order → Bytes.toNatBE s < Curve.order →
      ofDerLax (ofWordBytes r s).toDer = .ok (ofWordBytes r s).normalizeS) := by
  have hvalueR : (ofWordBytes r s).r.toNat = Bytes.toNatBE r := toNat_ofNat_toNatBE hr
  have hvalueS : (ofWordBytes r s).s.toNat = Bytes.toNatBE s := toNat_ofNat_toNatBE hs
  have hread := ofDerLax_toDer (ofWordBytes r s)
  rw [toNat_normalizeS, hvalueR, hvalueS] at hread
  refine ⟨isStrictDer_toDer _ hashType, ⟨_, hread, ?_⟩, ?_⟩
  · split
    · rw [normalizeS_r]
      exact ⟨wordBytes_ofNat hr, by rw [wordBytes, toNat_normalizeS, hvalueS]⟩
    · exact ⟨by decide, by decide⟩
  · intro hltR hltS
    have hlow : lowValue (Bytes.toNatBE s) < Curve.order := by
      have hle := isLowS_iff.mp (isLowS_normalizeS (hvalueS.trans_le (Nat.le_of_lt hltS)))
      have hodd := order_odd
      rw [toNat_normalizeS, hvalueS] at hle
      omega
    rw [hread, if_pos ⟨hltR, hlow⟩]

/-- One as the first word, with a high scalar as the second, and with a word above the order. -/
theorem written_signature_read_back_high :
    let r := Bytes.ofNatBE 32 1
    let s := Bytes.ofNatBE 32 (Curve.order - 2)
    let tooLarge := List.replicate 32 0xff
    (isStrictDer ((ofWordBytes r s).toDer ++ [0x01]) = true ∧
      ofDerLax (ofWordBytes r s).toDer = .ok (ofNats 1 2)) ∧
    isStrictDer ((ofWordBytes r tooLarge).toDer ++ [0x01]) = true ∧
      ∃ sig, ofDerLax (ofWordBytes r tooLarge).toDer = .ok sig ∧
        wordBytes sig.r = List.replicate 32 0 := by
  intro r s tooLarge
  have hr : r.length = 32 := Bytes.length_ofNatBE 32 _
  obtain ⟨hstrict, -, hread⟩ :=
    written_signature_read_back r s 0x01 hr (Bytes.length_ofNatBE 32 _)
  have hnormal : (ofWordBytes r s).normalizeS = ofNats 1 2 := by decide
  obtain ⟨hstrict', ⟨sig, hsig, hwords⟩, -⟩ :=
    written_signature_read_back r tooLarge 0x01 hr (by decide)
  rw [if_neg (by decide)] at hwords
  exact ⟨⟨hstrict, by rw [hread (by decide) (by decide), hnormal]⟩, hstrict', sig, hsig, hwords.1⟩

end CoinScript.Signature
