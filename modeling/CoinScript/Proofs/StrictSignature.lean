import CoinScript.Signature.Der
import Mathlib.Data.List.Basic

/-! # The strict form of a signature

The strict check accepts two shortest integers in a sequence, followed by one byte, and nothing
else. It can be made without taking the signature apart, by reading single bytes of it: each test
is reached only when those before it have shown that the bytes it reads are there.
-/
namespace CoinScript.Signature

/-- The shortest form of an integer that is not negative, most significant byte first. -/
structure ShortestInteger (digits : Bytes) : Prop where
  nonempty : digits ≠ []
  positive : ∀ top ∈ digits.head?, top < 0x80
  unpadded : ∀ rest, digits = 0 :: rest → rest = [] ∨ ∃ next ∈ rest.head?, 0x80 ≤ next

/-- A sequence of two integers. -/
def derForm (r s : Bytes) : Bytes :=
  0x30 :: UInt8.ofNat (4 + r.length + s.length) :: 0x02 :: UInt8.ofNat r.length ::
    (r ++ 0x02 :: UInt8.ofNat s.length :: s)

variable {r s digits bytes rest : Bytes} {tagR lengthR tagS lengthS hashType : UInt8}

theorem isDerInteger_iff : isDerInteger digits = true ↔ ShortestInteger digits := by
  match digits with
  | [] =>
    simp only [isDerInteger, Bool.false_eq_true, false_iff]
    intro h
    exact h.nonempty rfl
  | [top] =>
    simp only [isDerInteger, decide_eq_true_eq]
    constructor
    · intro htop
      exact ⟨by simp, by simpa using htop, by simp⟩
    · intro h
      exact h.positive top rfl
  | top :: next :: rest =>
    simp only [isDerInteger, Bool.and_eq_true, Bool.or_eq_true, decide_eq_true_eq]
    constructor
    · rintro ⟨htop, hnext⟩
      refine ⟨by simp, by simpa using htop, ?_⟩
      rintro tail ⟨rfl, rfl⟩
      exact .inr ⟨next, rfl, hnext.resolve_left (by simp)⟩
    · intro h
      refine ⟨h.positive top rfl, ?_⟩
      by_cases htop : top = 0
      · subst htop
        simpa using h.unpadded _ rfl
      · exact .inl htop

theorem length_derForm (r s : Bytes) : (derForm r s).length = 6 + r.length + s.length := by
  simp only [derForm, List.length_cons, List.length_append]
  omega

section Grammar

theorem toNat_ofNat_of_le {n : Nat} (h : n ≤ 255) : (UInt8.ofNat n).toNat = n := by
  rw [UInt8.toNat_ofNat']
  omega

/-- The part of the strict check that follows the first length. -/
def areStrict (tagR lengthR : UInt8) (rest : Bytes) : Bool :=
  match Bytes.split? lengthR.toNat rest with
  | some (r, tagS :: lengthS :: rest) =>
    match Bytes.split? lengthS.toNat rest with
    | some (s, [_]) => tagR = 0x02 && isDerInteger r && tagS = 0x02 && isDerInteger s
    | _ => false
  | _ => false

theorem isStrictDer_cons (tag total tagR lengthR : UInt8) (rest : Bytes) :
    isStrictDer (tag :: total :: tagR :: lengthR :: rest) =
      (9 ≤ rest.length + 4 && rest.length + 4 ≤ 73 &&
        (tag = 0x30 && total.toNat + 3 = rest.length + 4 && areStrict tagR lengthR rest)) := rfl

theorem areStrict_of_parts (hr : r.length = lengthR.toNat) (hs : s.length = lengthS.toNat)
    (hashType : UInt8) : areStrict tagR lengthR (r ++ tagS :: lengthS :: (s ++ [hashType])) =
      (tagR = 0x02 && isDerInteger r && tagS = 0x02 && isDerInteger s) := by
  simp only [areStrict, ← hr, Bytes.split?_append, ← hs]

theorem isStrictDer_derForm (hlength : (derForm r s ++ [hashType]).length ≤ 73)
    (hr : ShortestInteger r) (hs : ShortestInteger s) :
    isStrictDer (derForm r s ++ [hashType]) = true := by
  have hrpos : 0 < r.length := List.length_pos_iff.mpr hr.nonempty
  have hspos : 0 < s.length := List.length_pos_iff.mpr hs.nonempty
  rw [List.length_append, length_derForm, List.length_singleton] at hlength
  have hlengthR : (UInt8.ofNat r.length).toNat = r.length := toNat_ofNat_of_le (by omega)
  have hlengthS : (UInt8.ofNat s.length).toNat = s.length := toNat_ofNat_of_le (by omega)
  have htotal : (UInt8.ofNat (4 + r.length + s.length)).toNat = 4 + r.length + s.length :=
    toNat_ofNat_of_le (by omega)
  simp only [derForm, List.cons_append, List.append_assoc, isStrictDer_cons,
    areStrict_of_parts hlengthR.symm hlengthS.symm, isDerInteger_iff.mpr hr,
    isDerInteger_iff.mpr hs, htotal, List.length_append, List.length_cons, List.length_nil,
    Bool.and_eq_true, decide_eq_true_eq, and_true, true_and]
  omega

theorem length_of_isStrictDer (h : isStrictDer bytes = true) :
    9 ≤ bytes.length ∧ bytes.length ≤ 73 := by
  unfold isStrictDer at h
  rw [Bool.and_eq_true, Bool.and_eq_true, decide_eq_true_eq, decide_eq_true_eq] at h
  exact h.1

theorem derForm_of_isStrictDer (h : isStrictDer bytes = true) :
    ∃ r s hashType, bytes = derForm r s ++ [hashType] ∧ ShortestInteger r ∧ ShortestInteger s := by
  unfold isStrictDer at h
  rw [Bool.and_eq_true] at h
  obtain ⟨-, h⟩ := h
  split at h
  · next tag total tagR lengthR rest =>
    rw [Bool.and_eq_true, Bool.and_eq_true, decide_eq_true_eq, decide_eq_true_eq] at h
    obtain ⟨⟨rfl, htotal⟩, h⟩ := h
    split at h
    · next r tagS lengthS rest hsplitR =>
      split at h
      · next s hashType hsplitS =>
        obtain ⟨rfl, hr⟩ := Bytes.split?_eq_some hsplitR
        obtain ⟨rfl, hs⟩ := Bytes.split?_eq_some hsplitS
        simp only [Bool.and_eq_true, decide_eq_true_eq] at h
        obtain ⟨⟨⟨rfl, hshortR⟩, rfl⟩, hshortS⟩ := h
        have hsum : total.toNat = 4 + r.length + s.length := by
          simp only [List.length_cons, List.length_append, List.length_nil] at htotal
          omega
        refine ⟨r, s, hashType, ?_, isDerInteger_iff.mp hshortR, isDerInteger_iff.mp hshortS⟩
        rw [derForm, ← hsum, hr, hs]
        simp only [UInt8.ofNat_toNat, List.cons_append, List.append_assoc]
      · cases h
    · cases h
  · cases h

end Grammar

section InPlace

/-- The tests on one integer, whose tag stands at an offset and which has the given length. A byte
that is not there makes the answer nothing. -/
def integerInPlace (bytes : Bytes) (offset length : Nat) : Option Bool := do
  if (← bytes[offset]?) ≠ 0x02 then return false
  if length = 0 then return false
  if 0x80 ≤ (← bytes[offset + 2]?) then return false
  if length ≤ 1 then return true
  if (← bytes[offset + 2]?) ≠ 0 then return true
  return 0x80 ≤ (← bytes[offset + 3]?)

/-- The tests on both integers, once the first length is read. -/
def integersInPlace (bytes : Bytes) (lengthR : Nat) : Option Bool := do
  if bytes.length ≤ 5 + lengthR then return false
  let lengthS := (← bytes[5 + lengthR]?).toNat
  if lengthR + lengthS + 7 ≠ bytes.length then return false
  if ← integerInPlace bytes 2 lengthR then integerInPlace bytes (lengthR + 4) lengthS
  else return false

def strictInPlace (bytes : Bytes) : Option Bool := do
  if bytes.length < 9 ∨ 73 < bytes.length then return false
  if (← bytes[0]?) ≠ 0x30 then return false
  if (← bytes[1]?).toNat ≠ bytes.length - 3 then return false
  integersInPlace bytes (← bytes[3]?).toNat

/-- The part of the input that starts at a position. -/
def At (input : Bytes) (pos : Nat) (rest : Bytes) : Prop :=
  ∃ front, input = front ++ rest ∧ front.length = pos

namespace At

variable {input front : Bytes} {pos : Nat} {b : UInt8}

theorem length (h : At input pos rest) : input.length = pos + rest.length := by
  obtain ⟨before, rfl, rfl⟩ := h
  exact List.length_append

theorem skip (h : At input pos (front ++ rest)) : At input (pos + front.length) rest := by
  obtain ⟨before, rfl, rfl⟩ := h
  exact ⟨before ++ front, by simp, by simp⟩

theorem next (h : At input pos (b :: rest)) : At input (pos + 1) rest :=
  skip (show At input pos ([b] ++ rest) from h)

theorem read (h : At input pos (b :: rest)) : input[pos]? = some b := by
  obtain ⟨before, rfl, rfl⟩ := h
  rw [List.getElem?_append_right (Nat.le_refl _), Nat.sub_self]
  rfl

end At

theorem integerInPlace_eq {tag length : UInt8} {offset : Nat} {payload : Bytes}
    (h : At bytes offset (tag :: length :: (payload ++ rest))) :
    integerInPlace bytes offset payload.length = some (tag = 0x02 && isDerInteger payload) := by
  have hpayload : At bytes (offset + 2) (payload ++ rest) := h.next.next
  unfold integerInPlace
  rw [h.read]
  by_cases htwo : tag = 0x02
  · match payload with
    | [] => simp [isDerInteger]
    | [top] =>
      rw [hpayload.read]
      by_cases htop : top < 0x80
      · simp [isDerInteger, htwo, htop, UInt8.not_le.mpr htop]
      · simp [isDerInteger, htwo, htop, UInt8.not_lt.mp htop]
    | top :: next :: payload =>
      have hnext : bytes[offset + 3]? = some next := hpayload.next.read
      rw [hpayload.read, hnext]
      by_cases htop : top < 0x80
      · by_cases hzero : top = 0
        · simp [isDerInteger, htwo, hzero]
        · simp [isDerInteger, htwo, hzero, htop, UInt8.not_le.mpr htop]
      · simp [isDerInteger, htwo, htop, UInt8.not_lt.mp htop]
  · simp [htwo]

theorem areStrict_of_short (h : rest.length ≤ lengthR.toNat + 1) :
    areStrict tagR lengthR rest = false := by
  unfold areStrict
  split
  · next hsplit =>
    obtain ⟨rfl, hr⟩ := Bytes.split?_eq_some hsplit
    simp only [List.length_append, List.length_cons] at h
    omega
  · rfl

theorem areStrict_of_other_length (hr : r.length = lengthR.toNat)
    (h : rest.length ≠ lengthS.toNat + 1) :
    areStrict tagR lengthR (r ++ tagS :: lengthS :: rest) = false := by
  simp only [areStrict, ← hr, Bytes.split?_append]
  split
  · next hsplit =>
    obtain ⟨rfl, hs⟩ := Bytes.split?_eq_some hsplit
    simp only [List.length_append, List.length_singleton] at h
    omega
  · rfl

/-- Both integers, when the part after the first has room for a tag and a length. -/
theorem integersInPlace_of_room
    (h : At bytes 2 (tagR :: lengthR :: (r ++ tagS :: lengthS :: rest)))
    (hr : r.length = lengthR.toNat) : integersInPlace bytes lengthR.toNat =
      some (areStrict tagR lengthR (r ++ tagS :: lengthS :: rest)) := by
  have hsize := h.length
  simp only [List.length_cons, List.length_append, hr] at hsize
  have hsecond : At bytes (lengthR.toNat + 4) (tagS :: lengthS :: rest) := by
    rw [← hr, Nat.add_comm]
    exact h.next.next.skip
  have hlengthS : bytes[5 + lengthR.toNat]? = some lengthS := by
    rw [Nat.add_comm]
    exact hsecond.next.read
  unfold integersInPlace
  rw [if_neg (by omega)]
  simp only [hlengthS, Option.bind_eq_bind, Option.bind_some]
  -- The second length is right exactly when one byte is left after the second payload.
  by_cases hlast : rest.length = lengthS.toNat + 1
  · obtain ⟨s, hashType, rfl⟩ : ∃ s hashType, rest = s ++ [hashType] :=
      rest.eq_nil_or_concat'.resolve_left (by rintro rfl; simp at hlast)
    have hs : s.length = lengthS.toNat := by simpa using hlast
    rw [areStrict_of_parts hr hs, if_neg (by omega), ← hr, ← hs, integerInPlace_eq h, hr,
      integerInPlace_eq hsecond]
    cases decide (tagR = 0x02) && isDerInteger r <;> rfl
  · rw [areStrict_of_other_length hr hlast, if_pos (by omega)]
    rfl

theorem integersInPlace_eq (h : At bytes 2 (tagR :: lengthR :: rest)) :
    integersInPlace bytes lengthR.toNat = some (areStrict tagR lengthR rest) := by
  by_cases hshort : rest.length ≤ lengthR.toNat + 1
  · have hsize := h.length
    simp only [List.length_cons] at hsize
    rw [areStrict_of_short hshort, integersInPlace, if_pos (by omega)]
    rfl
  · obtain ⟨r, after, rfl, hr⟩ : ∃ r after, rest = r ++ after ∧ r.length = lengthR.toNat :=
      ⟨_, _, (List.take_append_drop lengthR.toNat rest).symm,
        List.length_take_of_le (by omega)⟩
    match after with
    | [] | [_] => simp [hr] at hshort
    | tagS :: lengthS :: rest => exact integersInPlace_of_room h hr

theorem strictInPlace_eq (bytes : Bytes) : strictInPlace bytes = some (isStrictDer bytes) := by
  by_cases hlength : bytes.length < 9 ∨ 73 < bytes.length
  · have hrefused : isStrictDer bytes = false := by
      rw [Bool.eq_false_iff]
      intro haccepted
      have := length_of_isStrictDer haccepted
      omega
    simp [strictInPlace, hlength, hrefused]
  · match bytes with
    | tag :: total :: tagR :: lengthR :: rest =>
      have hat : At (tag :: total :: tagR :: lengthR :: rest) 2 (tagR :: lengthR :: rest) :=
        ⟨[tag, total], rfl, rfl⟩
      simp only [strictInPlace, if_neg hlength, List.getElem?_cons_zero, List.getElem?_cons_succ,
        Option.bind_eq_bind, Option.bind_some, integersInPlace_eq hat]
      simp only [List.length_cons] at hlength
      have hbounds : 9 ≤ rest.length + 4 ∧ rest.length + 4 ≤ 73 := by omega
      rw [isStrictDer_cons]
      by_cases htag : tag = 0x30
      · by_cases htotal : total.toNat = rest.length + 1
        · simp [htag, htotal, hbounds]
        · simp [htag, htotal]
      · simp [htag]
    | [] | [_] | [_, _] | [_, _, _] => simp at hlength

end InPlace

/-- The strict check accepts exactly two shortest integers in a sequence and one byte after it, in
at most 73 bytes. Made by single bytes it gives the same answer on every input, so that each byte
it asks for is there. -/
theorem strictCheck_accepts_derForm (sig : Bytes) :
    (isStrictDer sig = true ↔ ∃ r s hashType, sig = derForm r s ++ [hashType] ∧
      sig.length ≤ 73 ∧ ShortestInteger r ∧ ShortestInteger s) ∧
    strictInPlace sig = some (isStrictDer sig) := by
  refine ⟨?_, strictInPlace_eq sig⟩
  constructor
  · intro h
    obtain ⟨r, s, hashType, hsig, hr, hs⟩ := derForm_of_isStrictDer h
    exact ⟨r, s, hashType, hsig, (length_of_isStrictDer h).2, hr, hs⟩
  · rintro ⟨r, s, hashType, rfl, hlength, hr, hs⟩
    exact isStrictDer_derForm hlength hr hs

end CoinScript.Signature
