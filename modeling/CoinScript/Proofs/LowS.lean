import CoinScript.Proofs.CanonicalSignature
import Mathlib.Tactic.LinearCombination

/-! # Low and high `s`

A scalar and the group order minus it are never both low, and never both high. Normalizing takes
the low one of the two, so a signature verifies the same digests whichever of them it has. A word
above the group order is not helped by this: what is left of the order wraps around to a word that
is above the order again. The difference itself can be taken byte by byte, with a borrow from one
byte to the next.
-/
namespace CoinScript

namespace Bytes

variable {s t : Bytes}

theorem toNatBE_lt (s : Bytes) : toNatBE s < 256 ^ s.length := by
  have hlt := toNatLE_lt s.reverse
  rwa [List.length_reverse] at hlt

theorem lt_iff_toNatBE_lt (h : s.length = t.length) : s < t ↔ toNatBE s < toNatBE t := by
  induction s generalizing t with
  | nil =>
    obtain rfl := List.length_eq_zero_iff.mp h.symm
    simp
  | cons a s ih =>
    cases t with
    | nil => cases h
    | cons b t =>
      have hlength : s.length = t.length := Nat.succ.inj h
      have hs := toNatBE_lt s
      have ht := toNatBE_lt t
      rw [List.cons_lt_cons_iff, ih hlength, toNatBE_cons, toNatBE_cons, hlength,
        UInt8.lt_iff_toNat_lt, ← UInt8.toNat_inj]
      rw [hlength] at hs
      -- A smaller first byte is a whole place less, more than the rest can make up for.
      have hplace {x y : Nat} (hxy : x < y) : x * 256 ^ t.length + 256 ^ t.length ≤
          y * 256 ^ t.length := by
        rw [← Nat.succ_mul]
        exact Nat.mul_le_mul_right _ hxy
      rcases Nat.lt_trichotomy a.toNat b.toNat with hab | hab | hab
      · have := hplace hab
        omega
      · rw [hab]
        omega
      · have := hplace hab
        omega

section Borrow

/-- One place of a subtraction: the digit, and whether the next place has to lend. -/
def subtractPlace (a b : UInt8) (borrow : Bool) : UInt8 × Bool :=
  let diff : Int := a.toNat - b.toNat - borrow.toNat
  if diff < 0 then (UInt8.ofNat (diff + 256).toNat, true) else (UInt8.ofNat diff.toNat, false)

/-- The difference of two strings of one length, from the last place to the first. -/
def subtractPlaces : Bytes → Bytes → Bytes × Bool
  | a :: s, b :: t =>
    let (digits, borrow) := subtractPlaces s t
    let (digit, borrow) := subtractPlace a b borrow
    (digit :: digits, borrow)
  | _, _ => ([], false)

theorem subtractPlace_value (a b : UInt8) (borrow : Bool) :
    (subtractPlace a b borrow).1.toNat + b.toNat + borrow.toNat =
      a.toNat + 256 * (subtractPlace a b borrow).2.toNat := by
  have ha := a.toNat_lt
  have hb := b.toNat_lt
  have hborrow := borrow.toNat_le
  unfold subtractPlace
  dsimp only
  split
  · rw [UInt8.toNat_ofNat', Bool.toNat_true]
    omega
  · rw [UInt8.toNat_ofNat', Bool.toNat_false]
    omega

theorem subtractPlaces_cons (a b : UInt8) (s t : Bytes) : subtractPlaces (a :: s) (b :: t) =
    ((subtractPlace a b (subtractPlaces s t).2).1 :: (subtractPlaces s t).1,
      (subtractPlace a b (subtractPlaces s t).2).2) := rfl

theorem length_subtractPlaces (h : s.length = t.length) :
    (subtractPlaces s t).1.length = s.length := by
  induction s generalizing t with
  | nil => rfl
  | cons a s ih =>
    cases t with
    | nil => cases h
    | cons b t => rw [subtractPlaces_cons, List.length_cons, ih (Nat.succ.inj h), List.length_cons]

/-- What is borrowed at the end is one unit of the place after the last. -/
theorem subtractPlaces_value (h : s.length = t.length) :
    toNatBE (subtractPlaces s t).1 + toNatBE t =
      toNatBE s + 256 ^ s.length * (subtractPlaces s t).2.toNat := by
  induction s generalizing t with
  | nil =>
    obtain rfl := List.length_eq_zero_iff.mp h.symm
    rfl
  | cons a s ih =>
    cases t with
    | nil => cases h
    | cons b t =>
      have hlength : s.length = t.length := Nat.succ.inj h
      have hrest := ih hlength
      have hplace := subtractPlace_value a b (subtractPlaces s t).2
      rw [subtractPlaces_cons, toNatBE_cons, toNatBE_cons, toNatBE_cons,
        length_subtractPlaces hlength, ← hlength, List.length_cons, Nat.pow_succ]
      linear_combination hrest + 256 ^ s.length * hplace

end Borrow

end Bytes

namespace Signature

variable {s : Bytes} {sig : Signature} {w : BitVec 256}

section Complement

theorem order_lt_two_pow : Curve.order < 2 ^ 256 := by decide

theorem order_odd : Curve.order = 2 * (Curve.order / 2) + 1 := by decide

theorem toNat_halfOrder : halfOrder.toNat = Curve.order / 2 := by decide

theorem isLowS_iff : sig.isLowS = true ↔ sig.s.toNat ≤ Curve.order / 2 := by
  simp only [isLowS, BitVec.le_def, toNat_halfOrder, decide_eq_true_eq]

theorem toNat_complement (w : BitVec 256) :
    ((complement w).toNat : Int) = (Curve.order - w.toNat) % 2 ^ 256 := by
  have horder := order_lt_two_pow
  have hw := w.isLt
  rw [complement, BitVec.toNat_sub, BitVec.toNat_ofNat, Nat.mod_eq_of_lt horder]
  omega

theorem toNat_complement_of_le (h : w.toNat ≤ Curve.order) :
    (complement w).toNat = Curve.order - w.toNat := by
  have horder := order_lt_two_pow
  have hvalue := toNat_complement w
  omega

/-- Above the group order the difference wraps around, but not as far as the order. -/
theorem order_lt_toNat_complement (h : Curve.order < w.toNat) :
    Curve.order < (complement w).toNat := by
  have hw := w.isLt
  have hvalue := toNat_complement w
  omega

theorem complement_complement (w : BitVec 256) : complement (complement w) = w := by
  apply BitVec.eq_of_toNat_eq
  have horder := order_lt_two_pow
  have hw := w.isLt
  have hvalue := toNat_complement w
  have hback := toNat_complement (complement w)
  omega

/-- The same signature with the other one of the two scalars. -/
def flipS (sig : Signature) : Signature := { sig with s := complement sig.s }

@[simp] theorem flipS_s (sig : Signature) : sig.flipS.s = complement sig.s := rfl

theorem isLowS_flipS (h : sig.s.toNat ≤ Curve.order) :
    sig.flipS.isLowS = true ↔ ¬sig.isLowS = true := by
  have hodd := order_odd
  have hvalue := toNat_complement_of_le h
  rw [isLowS_iff, isLowS_iff, flipS_s]
  omega

theorem normalizeS_of_low (h : sig.isLowS = true) : sig.normalizeS = sig := if_pos h

theorem normalizeS_of_high (h : ¬sig.isLowS = true) : sig.normalizeS = sig.flipS := if_neg h

theorem flipS_flipS (sig : Signature) : sig.flipS.flipS = sig := by
  rw [flipS, flipS, complement_complement]

theorem normalizeS_flipS (h : sig.s.toNat ≤ Curve.order) :
    sig.flipS.normalizeS = sig.normalizeS := by
  by_cases hlow : sig.isLowS = true
  · have hhigh : ¬sig.flipS.isLowS = true := by rwa [isLowS_flipS h, not_not]
    rw [normalizeS_of_high hhigh, flipS_flipS, normalizeS_of_low hlow]
  · rw [normalizeS_of_low ((isLowS_flipS h).mpr hlow), normalizeS_of_high hlow]

theorem isLowS_normalizeS (h : sig.s.toNat ≤ Curve.order) : sig.normalizeS.isLowS = true := by
  by_cases hlow : sig.isLowS = true
  · rwa [normalizeS_of_low hlow]
  · have hvalue := toNat_complement_of_le h
    rw [normalizeS_of_high hlow, isLowS_iff, flipS_s]
    rw [isLowS_iff] at hlow
    omega

theorem isScalar_normalizeS (sig : Signature) :
    Curve.isScalar sig.normalizeS.s.toNat = Curve.isScalar sig.s.toNat := by
  by_cases hlow : sig.isLowS = true
  · rw [normalizeS_of_low hlow]
  · rw [normalizeS_of_high hlow, flipS_s, Bool.eq_iff_iff]
    simp only [Curve.isScalar, Bool.and_eq_true, decide_eq_true_eq]
    rw [isLowS_iff] at hlow
    by_cases hle : sig.s.toNat ≤ Curve.order
    · have hvalue := toNat_complement_of_le hle
      omega
    · have hwrapped := order_lt_toNat_complement (Nat.not_le.mp hle)
      omega

end Complement

section Verification

variable {curve : Curve.Library}

theorem verify_of_normalizeS_eq {sig' : Signature} (h : sig.normalizeS = sig'.normalizeS)
    (digest : Bytes) (key : PublicKey) :
    sig.verify digest key curve = sig'.verify digest key curve := by
  rw [verify, verify, h]

theorem verify_eq_false (hcurve : curve.AdmitsScalars)
    (h : Curve.isScalar sig.r.toNat = false ∨ Curve.isScalar sig.s.toNat = false)
    (digest : Bytes) (key : PublicKey) : sig.verify digest key curve = false := by
  rw [Bool.eq_false_iff]
  intro hverify
  obtain ⟨hr, hs⟩ := scalars_of_verify hcurve hverify
  rw [normalizeS_r] at hr
  rw [isScalar_normalizeS] at hs
  simp [hr, hs] at h

end Verification

section Bytes

def subtractFromOrder (s : Bytes) : Bytes :=
  (Bytes.subtractPlaces (Bytes.ofNatBE 32 Curve.order) s).1

theorem length_subtractFromOrder (h : s.length = 32) : (subtractFromOrder s).length = 32 := by
  rw [subtractFromOrder, Bytes.length_subtractPlaces (by rw [Bytes.length_ofNatBE, h]),
    Bytes.length_ofNatBE]

theorem toNatBE_subtractFromOrder (h : s.length = 32) :
    (Bytes.toNatBE (subtractFromOrder s) : Int) = (Curve.order - Bytes.toNatBE s) % 2 ^ 256 := by
  have hvalue := Bytes.subtractPlaces_value (s := Bytes.ofNatBE 32 Curve.order) (t := s)
    (by rw [Bytes.length_ofNatBE, h])
  have hlt := Bytes.toNatBE_lt (subtractFromOrder s)
  have horder : Bytes.toNatBE (Bytes.ofNatBE 32 Curve.order) = Curve.order := by decide
  rw [length_subtractFromOrder h] at hlt
  rw [horder, Bytes.length_ofNatBE, ← subtractFromOrder] at hvalue
  omega

theorem toNat_ofNat_toNatBE (h : s.length = 32) :
    (BitVec.ofNat 256 (Bytes.toNatBE s)).toNat = Bytes.toNatBE s := by
  have hlt := Bytes.toNatBE_lt s
  rw [h] at hlt
  rw [BitVec.toNat_ofNat]
  omega

theorem wordBytes_ofNat (h : s.length = 32) :
    wordBytes (BitVec.ofNat 256 (Bytes.toNatBE s)) = s := by
  rw [wordBytes, toNat_ofNat_toNatBE h, ← h, Bytes.ofNatBE_toNatBE]

theorem ofWordBytes_subtractFromOrder (r : Bytes) (h : s.length = 32) :
    ofWordBytes r (subtractFromOrder s) = (ofWordBytes r s).flipS := by
  suffices hword : BitVec.ofNat 256 (Bytes.toNatBE (subtractFromOrder s)) =
      complement (BitVec.ofNat 256 (Bytes.toNatBE s)) by
    rw [ofWordBytes, ofNats, hword]
    rfl
  apply BitVec.eq_of_toNat_eq
  have hbytes := toNatBE_subtractFromOrder h
  have hword := toNat_complement (BitVec.ofNat 256 (Bytes.toNatBE s))
  rw [toNat_ofNat_toNatBE h] at hword
  rw [toNat_ofNat_toNatBE (length_subtractFromOrder h)]
  omega

end Bytes

/-- Normalizing is exact on all pairs of 32 bytes. The difference to the group order is taken
modulo `2 ^ 256`, and a word is compared with half the order as its bytes are. Up to the order, a
word and its difference normalize to the same low one, and so the two verify the same digests. With
a library that admits scalars only, a pair that is not one of scalars verifies none, wherever the
difference wraps to. -/
theorem normalization_is_exact (r s : Bytes) (hr : r.length = 32) (hs : s.length = 32) :
    let sig := ofWordBytes r s
    let other := ofWordBytes r (subtractFromOrder s)
    (wordBytes (complement sig.s) = subtractFromOrder s ∧
      (Bytes.toNatBE (subtractFromOrder s) : Int) = (Curve.order - Bytes.toNatBE s) % 2 ^ 256) ∧
    (sig.isLowS = true ↔ ¬wordBytes halfOrder < s) ∧
    (Bytes.toNatBE s ≤ Curve.order →
      Bytes.toNatBE (subtractFromOrder s) = Curve.order - Bytes.toNatBE s ∧
      (other.isLowS = true ↔ ¬sig.isLowS = true) ∧
      other.normalizeS = sig.normalizeS ∧ sig.normalizeS.isLowS = true ∧
      sig.normalizeS.normalizeS = sig.normalizeS ∧
      ∀ digest key curve, other.verify digest key curve = sig.verify digest key curve) ∧
    (Bytes.toNatBE r = 0 ∨ Curve.order ≤ Bytes.toNatBE r ∨
      Bytes.toNatBE s = 0 ∨ Curve.order ≤ Bytes.toNatBE s →
        ∀ digest key curve, curve.AdmitsScalars → sig.verify digest key curve = false) := by
  intro sig other
  have hvalueR : sig.r.toNat = Bytes.toNatBE r := toNat_ofNat_toNatBE hr
  have hvalueS : sig.s.toNat = Bytes.toNatBE s := toNat_ofNat_toNatBE hs
  have hother : other = sig.flipS := ofWordBytes_subtractFromOrder r hs
  have hbytes := toNatBE_subtractFromOrder hs
  refine ⟨⟨?_, hbytes⟩, ?_, ?_, ?_⟩
  · have hword : complement sig.s = other.s := by rw [hother, flipS_s]
    rw [hword]
    exact wordBytes_ofNat (length_subtractFromOrder hs)
  · have hlength : (wordBytes halfOrder).length = s.length := by
      rw [wordBytes, Bytes.length_ofNatBE, hs]
    have hhalf : Bytes.toNatBE (wordBytes halfOrder) = Curve.order / 2 := by decide
    rw [isLowS_iff, Bytes.lt_iff_toNatBE_lt hlength, hhalf, hvalueS, Nat.not_lt]
  · intro hle
    have horder := order_lt_two_pow
    have hdifference : Bytes.toNatBE (subtractFromOrder s) = Curve.order - Bytes.toNatBE s := by
      omega
    rw [← hvalueS] at hle
    have hlow := isLowS_normalizeS hle
    have hnormal : other.normalizeS = sig.normalizeS := by rw [hother, normalizeS_flipS hle]
    exact ⟨hdifference, by rw [hother, isLowS_flipS hle], hnormal, hlow, normalizeS_of_low hlow,
      fun digest key _ => verify_of_normalizeS_eq hnormal digest key⟩
  · intro hrange digest key curve hcurve
    apply verify_eq_false hcurve
    simp only [Curve.isScalar, Bool.and_eq_false_iff, decide_eq_false_iff_not, hvalueR, hvalueS]
    omega

/-- The signature of the digest of zeros by the generator, with its `s` on either side, and with an
`s` for which the difference wraps. -/
theorem normalization_is_exact_generator :
    let r := wordBytes (BitVec.ofNat 256 Curve.generator.x)
    let digest := List.replicate 32 0
    let key : PublicKey := ⟨Curve.generator⟩
    (ofWordBytes r r).verify digest key = true ∧
    (ofWordBytes r (subtractFromOrder r)).verify digest key = true ∧
    (ofWordBytes r (subtractFromOrder r)).isLowS = false ∧
    (ofWordBytes r (List.replicate 32 0xff)).verify digest key = false := by
  intro r digest key
  have hr : r.length = 32 := Bytes.length_ofNatBE 32 _
  obtain ⟨-, hlow, hscalar, -⟩ := normalization_is_exact r r hr hr
  obtain ⟨-, hother, -, -, -, hverify⟩ := hscalar (by decide)
  obtain ⟨-, -, -, hrange⟩ := normalization_is_exact r (List.replicate 32 0xff) hr (by decide)
  have hgood : (ofWordBytes r r).verify digest key = true := by decide +kernel
  refine ⟨hgood, by rw [hverify, hgood], ?_, ?_⟩
  · rw [Bool.eq_false_iff, Ne, hother, not_not, hlow]
    decide
  · exact hrange (by decide) digest key .standard Curve.Library.standard_admitsScalars

end Signature

end CoinScript
