import CoinScript.Machine.Encoding
import CoinScript.Proofs.LaxSignature

/-! # Good signatures are canonical

Under any of the rules on signature encodings, a signature that is good for a key is written in the
strict form, and the lax reader finds in it the integers that the strict check has seen. The
encoding alone does not say that these are scalars: an integer that is too large reads as zero,
which is low. It is the verification that turns such a signature down, with a library for the
curve that admits scalars only.
-/
namespace CoinScript

/-- The library admits no components but scalars. -/
def Curve.Library.AdmitsScalars (curve : Library) : Prop :=
  ∀ r s, curve.admits r s = true → isScalar r = true ∧ isScalar s = true

theorem Curve.Library.standard_admitsScalars : standard.AdmitsScalars :=
  fun _ _ => Bool.and_eq_true_iff.mp

/-- A signature without its hash type in the strict form, with the integers that it encodes. -/
def StrictDer (der : Bytes) (r s : Nat) : Prop :=
  ∃ digitsR digitsS, der = Signature.derForm digitsR digitsS ∧ der.length ≤ 72 ∧
    Signature.ShortestInteger digitsR ∧ Signature.ShortestInteger digitsS ∧
    Bytes.toNatBE digitsR = r ∧ Bytes.toNatBE digitsS = s

/-- The rules admit the signature to a check, and the context, which goes by its digests, finds it
good for the key. -/
structure Env.Accepted (env : Env) (ctx : TxContext) (version : SigVersion) (code : Script)
    (sig key : Bytes) : Prop where
  byDigest : ctx.checkSignature = ctx.signatureHash.check ctx.curve
  encoded : env.checkSignatureEncoding sig = .ok ()
  verified : ctx.checkSignature sig key code version = true

variable {der : Bytes} {r s : Nat}

namespace Signature

variable {digits digitsR digitsS : Bytes}

theorem laxLength_of_short (h : digits.length < 0x80) :
    LaxLength [UInt8.ofNat digits.length] digits.length := by
  have hlength : (UInt8.ofNat digits.length).toNat = digits.length := toNat_ofNat_of_le (by omega)
  have hshort : UInt8.ofNat digits.length < 0x80 := by
    rw [UInt8.lt_iff_toNat_lt, hlength]
    exact h
  have hlax := LaxLength.short hshort
  rwa [hlength] at hlax

theorem laxForm_derForm (h : (derForm digitsR digitsS).length ≤ 72) :
    LaxForm (derForm digitsR digitsS) digitsR digitsS := by
  rw [length_derForm] at h
  have htotal : UInt8.ofNat (4 + digitsR.length + digitsS.length) < 0x80 := by
    rw [UInt8.lt_iff_toNat_lt, toNat_ofNat_of_le (by omega)]
    change _ < 128
    omega
  refine ⟨_, _, _, [], .short htotal, ⟨_, laxLength_of_short (by omega), rfl⟩,
    ⟨_, laxLength_of_short (by omega), rfl⟩, ?_⟩
  simp [derForm]

theorem ofDerLax_derForm (h : (derForm digitsR digitsS).length ≤ 72) :
    ofDerLax (derForm digitsR digitsS) = .ok (ofPayloads digitsR digitsS) :=
  ofDerLax_eq_ok_iff.mpr ⟨_, _, laxForm_derForm h, rfl⟩

section Verification

variable {sig : Signature} {digest : Bytes} {key : PublicKey} {curve : Curve.Library}
  (hcurve : curve.AdmitsScalars)

@[simp] theorem normalizeS_r (sig : Signature) : sig.normalizeS.r = sig.r := by
  unfold normalizeS
  split <;> rfl

include hcurve

theorem scalars_of_verify (h : sig.verify digest key curve = true) :
    Curve.isScalar sig.normalizeS.r.toNat = true ∧
      Curve.isScalar sig.normalizeS.s.toNat = true :=
  hcurve _ _ (Bool.and_eq_true_iff.mp h).1

theorem pos_of_verify (h : sig.verify digest key curve = true) :
    0 < sig.r.toNat ∧ 0 < sig.s.toNat := by
  obtain ⟨hr, hs⟩ := scalars_of_verify hcurve h
  rw [normalizeS_r] at hr
  refine ⟨(by simpa [Curve.isScalar] using hr : _ ∧ _).1, Nat.pos_of_ne_zero fun hzero => ?_⟩
  -- A zero `s` is low, so it is the one that is verified.
  have hlow : sig.isLowS = true := by
    simp [isLowS, BitVec.le_def, hzero]
  rw [normalizeS, if_pos hlow, hzero] at hs
  cases hs

/-- Payloads that make a good signature are scalars: out of range they make zero. -/
theorem scalars_of_verify_ofPayloads
    (h : (ofPayloads digitsR digitsS).verify digest key curve = true) :
    (0 < Bytes.toNatBE digitsR ∧ Bytes.toNatBE digitsR < Curve.order) ∧
    0 < Bytes.toNatBE digitsS ∧ Bytes.toNatBE digitsS < Curve.order := by
  have hpos := pos_of_verify hcurve h
  unfold ofPayloads at hpos
  split at hpos
  · next hvalues =>
    simp only [ofNats, toNat_ofNat_of_lt_order hvalues.1, toNat_ofNat_of_lt_order hvalues.2] at hpos
    exact ⟨⟨hpos.1, hvalues.1⟩, hpos.2, hvalues.2⟩
  · exact absurd hpos.1 (by decide)

end Verification

section Canonical

theorem derInteger_toNatBE (h : ShortestInteger digits)
    (hvalue : Bytes.toNatBE digits < Curve.order) :
    derInteger (BitVec.ofNat 256 (Bytes.toNatBE digits)) = digits := by
  have hwidth : Curve.order < 256 ^ 32 := by decide
  rw [derInteger, wordBytes, toNat_ofNat_of_lt_order hvalue,
    Bytes.dropZeros_ofNatBE (Nat.lt_trans hvalue hwidth)]
  cases digits with
  | nil => exact absurd rfl h.nonempty
  | cons top rest =>
    by_cases htop : top = 0
    · subst htop
      have hdropped : Bytes.dropZeros (0 :: rest) = Bytes.dropZeros rest := rfl
      rw [hdropped]
      cases rest with
      | nil => rfl
      | cons next rest =>
        have hnext : 0x80 ≤ next := by simpa using h.unpadded (next :: rest) rfl
        have hnonzero : next ≠ 0 := by
          rintro rfl
          exact absurd hnext (by decide)
        rw [Bytes.dropZeros_cons_of_ne hnonzero]
        exact if_neg (UInt8.not_lt.mpr hnext)
    · rw [Bytes.dropZeros_cons_of_ne htop]
      exact if_pos (h.positive top rfl)

theorem toDer_ofNats (hR : ShortestInteger digitsR) (hS : ShortestInteger digitsS)
    (hr : Bytes.toNatBE digitsR < Curve.order) (hs : Bytes.toNatBE digitsS < Curve.order)
    (hlow : (ofNats (Bytes.toNatBE digitsR) (Bytes.toNatBE digitsS)).isLowS = true) :
    (ofNats (Bytes.toNatBE digitsR) (Bytes.toNatBE digitsS)).toDer = derForm digitsR digitsS := by
  rw [toDer, normalizeS, if_pos hlow]
  simp only [ofNats, derInteger_toNatBE hR hr, derInteger_toNatBE hS hs]
  simp [derForm]

theorem le_half_of_isLowS (h : s < Curve.order) (hlow : (ofNats r s).isLowS = true) :
    s ≤ Curve.order / 2 := by
  have hhalf : halfOrder.toNat = Curve.order / 2 := by decide
  simpa [isLowS, ofNats, BitVec.le_def, toNat_ofNat_of_lt_order h, hhalf] using hlow

end Canonical

end Signature

open Signature

section Acceptance

variable {env : Env} {ctx : TxContext} {version : SigVersion} {code : Script} {sig key : Bytes}
  {hashType : UInt8}

theorem Env.checkSignatureEncoding_eq_ok_iff :
    env.checkSignatureEncoding (der ++ [hashType]) = .ok () ↔
      (env.flags.has .derSig = true ∨ env.flags.has .lowS = true ∨ env.flags.has .strictEnc = true →
        isStrictDer (der ++ [hashType]) = true) ∧
      (env.flags.has .lowS = true → hasLowS der = true) ∧
      (env.flags.has .strictEnc = true → isHashType hashType = true) := by
  simp only [checkSignatureEncoding, List.getLast?_concat, List.dropLast_concat]
  split_ifs <;> grind

/-- The encoding alone admits an `s` above the group order as a low one. -/
example : ({ flags := Flags.standard, script := [] } : Env).checkSignatureEncoding
    ([0x30, 0x26, 0x02, 0x01, 0x01, 0x02, 0x21, 0x00] ++ List.replicate 32 0xff ++ [0x01]) =
      .ok () := by
  decide +kernel

theorem SignatureHash.verify_of_check {hash : SignatureHash} {curve : Curve.Library}
    (h : hash.check curve sig key code version = true) :
    ∃ der hashType signature point, sig = der ++ [hashType] ∧ ofDerLax der = .ok signature ∧
      signature.verify (hash code hashType version) point curve = true := by
  unfold check at h
  split at h
  · next query hquery =>
    unfold SignatureQuery.of? at hquery
    split at hquery
    · cases hquery
    · next hashType hlast =>
      split at hquery
      · next point signature _ hsignature =>
        cases hquery
        exact ⟨sig.dropLast, hashType, signature, point,
          (List.dropLast_append_getLast? hashType hlast).symm, hsignature, h⟩
      · cases hquery
  · cases h

namespace Env.Accepted

theorem strictDer (hcurve : ctx.curve.AdmitsScalars) (h : env.Accepted ctx version code sig key)
    (hrules : env.flags.has .derSig = true ∨ env.flags.has .lowS = true ∨
      env.flags.has .strictEnc = true) :
    ∃ der hashType r s, sig = der ++ [hashType] ∧ StrictDer der r s ∧
      (1 ≤ r ∧ r < Curve.order) ∧ (1 ≤ s ∧ s < Curve.order) ∧
      ofDerLax der = .ok (ofNats r s) := by
  have hverified := h.verified
  rw [h.byDigest] at hverified
  obtain ⟨der, hashType, signature, point, rfl, hsignature, hverify⟩ :=
    SignatureHash.verify_of_check hverified
  have hstrict := (checkSignatureEncoding_eq_ok_iff.mp h.encoded).1 hrules
  obtain ⟨digitsR, digitsS, last, hform, hR, hS⟩ := derForm_of_isStrictDer hstrict
  obtain ⟨rfl, -⟩ := List.append_inj' hform rfl
  have hlength : (derForm digitsR digitsS).length ≤ 72 := by
    have hbound := (length_of_isStrictDer hstrict).2
    rw [List.length_append, List.length_singleton] at hbound
    omega
  have hread := ofDerLax_derForm hlength
  cases hsignature.symm.trans hread
  obtain ⟨hr, hs⟩ := scalars_of_verify_ofPayloads hcurve hverify
  rw [ofPayloads, if_pos ⟨hr.2, hs.2⟩] at hread
  exact ⟨_, hashType, _, _, rfl, ⟨digitsR, digitsS, rfl, hlength, hR, hS, rfl, rfl⟩, hr, hs, hread⟩

/-- Where `s` has to be low, a good signature is what is written for its scalars. -/
theorem toDer_eq (h : env.Accepted ctx version code (der ++ [hashType]) key)
    (hrule : env.flags.has .lowS = true) (hder : StrictDer der r s) (hr : r < Curve.order)
    (hs : s < Curve.order) (hread : ofDerLax der = .ok (ofNats r s)) :
    s ≤ Curve.order / 2 ∧ (ofNats r s).toDer = der := by
  have hlow := (checkSignatureEncoding_eq_ok_iff.mp h.encoded).2.1 hrule
  rw [hasLowS, hread] at hlow
  obtain ⟨digitsR, digitsS, rfl, -, hR, hS, rfl, rfl⟩ := hder
  exact ⟨le_half_of_isLowS hs hlow, toDer_ofNats hR hS hr hs hlow⟩

end Env.Accepted

end Acceptance

/-- With a library that admits scalars only, a signature that is good under a rule on encodings is
the strict form of two scalars, and the lax reader finds these. Where `s` has to be low, no other
signature with the same scalars and hash type is good. -/
theorem accepted_signature_canonical (env : Env) (ctx : TxContext) (version : SigVersion)
    (code : Script) (sig key : Bytes) (hcurve : ctx.curve.AdmitsScalars)
    (hrules : env.flags.has .derSig = true ∨ env.flags.has .lowS = true ∨
      env.flags.has .strictEnc = true)
    (haccepted : env.Accepted ctx version code sig key) :
    ∃ der hashType r s, sig = der ++ [hashType] ∧ StrictDer der r s ∧
      (1 ≤ r ∧ r < Curve.order) ∧ (1 ≤ s ∧ s < Curve.order) ∧ ofDerLax der = .ok (ofNats r s) ∧
      (env.flags.has .lowS = true →
        s ≤ Curve.order / 2 ∧ (ofDerLax der).map toDer = .ok der ∧
        ∀ ctx' version' code' sig' key', ctx'.curve.AdmitsScalars →
          env.Accepted ctx' version' code' sig' key' → ofDerLax sig'.dropLast = .ok (ofNats r s) →
            sig'.getLast? = some hashType → sig' = sig) := by
  obtain ⟨der, hashType, r, s, rfl, hder, hr, hs, hread⟩ := haccepted.strictDer hcurve hrules
  refine ⟨der, hashType, r, s, rfl, hder, hr, hs, hread, fun hrule => ?_⟩
  obtain ⟨hlow, hwritten⟩ := haccepted.toDer_eq hrule hder hr.2 hs.2 hread
  refine ⟨hlow, by rw [hread, Except.map, hwritten], ?_⟩
  -- Another such signature is also what is written for its scalars, which are the same.
  intro ctx' version' code' sig' key' hcurve' haccepted' hsame hlast
  obtain ⟨der', hashType', r', s', rfl, hder', hr', hs', hread'⟩ :=
    haccepted'.strictDer hcurve' hrules
  obtain ⟨-, hwritten'⟩ := haccepted'.toDer_eq hrule hder' hr'.2 hs'.2 hread'
  rw [List.dropLast_concat, hread', Except.ok.injEq] at hsame
  rw [List.getLast?_concat, Option.some.injEq] at hlast
  rw [← hwritten', hsame, hwritten, hlast]

def zeroDigestContext : TxContext where
  lockTime := 0
  version := 2
  sequence := 0
  signatureHash := fun _ _ _ => List.replicate 32 0

/-- For the digest of zeros and the key whose point is the generator, the abscissa of the generator
makes both scalars. -/
def generatorSignature : Bytes := (ofNats Curve.generator.x Curve.generator.x).toDer ++ [0x01]

theorem accepted_signature_canonical_generator :
    let env : Env := { flags := Flags.standard, script := [] }
    let key := PublicKey.uncompressed ⟨Curve.generator⟩
    env.Accepted zeroDigestContext .base [] generatorSignature key ∧
      ∃ der hashType r s, generatorSignature = der ++ [hashType] ∧ StrictDer der r s ∧
        s ≤ Curve.order / 2 := by
  intro env key
  have haccepted : env.Accepted zeroDigestContext .base [] generatorSignature key :=
    ⟨rfl, by decide +kernel, by decide +kernel⟩
  obtain ⟨der, hashType, r, s, hsig, hder, -, -, -, hlow⟩ :=
    accepted_signature_canonical env zeroDigestContext .base [] generatorSignature key
      Curve.Library.standard_admitsScalars (.inl (by decide)) haccepted
  exact ⟨haccepted, der, hashType, r, s, hsig, hder, (hlow (by decide)).1⟩

end CoinScript
