import CoinScript.Proofs.BigEndian
import CoinScript.Proofs.Outcome
import CoinScript.Proofs.StrictSignature

/-! # What passes for a signature

The lax reader takes a sequence of two integers in which lengths may be longer than needed,
integers may be padded, and anything may follow. It reads nothing that is not there: kept as a
position in the input, it never asks for a byte past the end, never subtracts what is larger, and
never computes a length of more than 64 bits.
-/
namespace CoinScript.Signature

/-- The length of a sequence: a byte below `80`, or a byte that says how many bytes follow it,
whatever these are. -/
inductive LaxHead : Bytes → Prop
  | short {length : UInt8} : length < 0x80 → LaxHead [length]
  | long {field : Bytes} : field.length < 0x80 →
    LaxHead (UInt8.ofNat (0x80 + field.length) :: field)

/-- The length of an integer: a byte below `80`, or a byte that says how many bytes follow it,
these being any number of zeros and then the length itself, in at most seven bytes. -/
inductive LaxLength : Bytes → Nat → Prop
  | short {length : UInt8} : length < 0x80 → LaxLength [length] length.toNat
  | long {zeros digits : Bytes} : (∀ b ∈ zeros, b = 0) → digits.head? ≠ some 0 →
    digits.length ≤ 7 → (zeros ++ digits).length < 0x80 →
    LaxLength (UInt8.ofNat (0x80 + (zeros ++ digits).length) :: (zeros ++ digits))
      (Bytes.toNatBE digits)

/-- An integer with the given payload: a tag, the length of the payload, and the payload. -/
def LaxInteger (bytes payload : Bytes) : Prop :=
  ∃ field, LaxLength field payload.length ∧ bytes = 0x02 :: (field ++ payload)

/-- A sequence of integers with the given payloads, and anything after it. -/
def LaxForm (bytes r s : Bytes) : Prop :=
  ∃ head integerR integerS junk, LaxHead head ∧ LaxInteger integerR r ∧ LaxInteger integerS s ∧
    bytes = 0x30 :: (head ++ integerR ++ integerS ++ junk)

variable {bytes rest payload digits r s : Bytes} {sig : Signature}

section Grammar

theorem ofNat_count_iff {length : UInt8} {count : Nat} :
    ¬length < 0x80 ∧ count = length.toNat - 0x80 ↔
      count < 0x80 ∧ length = UInt8.ofNat (0x80 + count) := by
  have hlt := length.toNat_lt
  rw [UInt8.lt_iff_toNat_lt, ← UInt8.toNat_inj, UInt8.toNat_ofNat']
  change ¬length.toNat < 128 ∧ _ ↔ _
  omega

theorem laxSequence_eq_ok_iff :
    laxSequence bytes = .ok rest ↔ ∃ head, LaxHead head ∧ bytes = 0x30 :: (head ++ rest) := by
  constructor
  · intro h
    unfold laxSequence at h
    split at h
    · cases h
    · next tag after =>
      split at h
      · cases h
      · next htag =>
        split at h
        · cases h
        · next length after =>
          split at h
          · next hshort =>
            cases h
            exact ⟨[length], .short hshort, by simpa using htag⟩
          · next hlong =>
            split at h
            · next field after hsplit =>
              cases h
              obtain ⟨rfl, hcount⟩ := Bytes.split?_eq_some hsplit
              obtain ⟨hsmall, rfl⟩ := ofNat_count_iff.mp ⟨hlong, hcount⟩
              exact ⟨_, .long hsmall, by simpa using htag⟩
            · cases h
  · rintro ⟨head, hhead, rfl⟩
    cases hhead with
    | short hshort => simp [laxSequence, hshort]
    | @long field hsmall =>
      obtain ⟨hlong, hcount⟩ := ofNat_count_iff.mpr ⟨hsmall, rfl⟩
      simp only [laxSequence, List.cons_append, ne_eq, not_true_eq_false, ↓reduceIte, hlong,
        ← hcount, Bytes.split?_append]

def longPayload? (count : Nat) (bytes : Bytes) : Option (Bytes × Bytes) :=
  match Bytes.split? count bytes with
  | some (digits, rest) =>
    let digits := Bytes.dropZeros digits
    if 8 ≤ digits.length then none else Bytes.split? (Bytes.toNatBE digits) rest
  | none => none

theorem laxInteger?_cons (tag length : UInt8) (rest : Bytes) :
    laxInteger? (tag :: length :: rest) =
      if tag ≠ 0x02 then none
      else if length < 0x80 then Bytes.split? length.toNat rest
      else longPayload? (length.toNat - 0x80) rest := by
  cases hsplit : Bytes.split? (length.toNat - 0x80) rest with
  | none => simp only [laxInteger?, longPayload?, hsplit]
  | some parts => simp only [laxInteger?, longPayload?, hsplit]

theorem longPayload?_eq_some_iff {count : Nat} :
    longPayload? count bytes = some (payload, rest) ↔
      ∃ zeros digits, (∀ b ∈ zeros, b = 0) ∧ digits.head? ≠ some 0 ∧ digits.length ≤ 7 ∧
        (zeros ++ digits).length = count ∧ Bytes.toNatBE digits = payload.length ∧
        bytes = zeros ++ digits ++ (payload ++ rest) := by
  constructor
  · intro h
    unfold longPayload? at h
    split at h
    · next field after hsplit =>
      dsimp only at h
      split at h
      · cases h
      · next hseven =>
        obtain ⟨rfl, hcount⟩ := Bytes.split?_eq_some hsplit
        obtain ⟨rfl, hlength⟩ := Bytes.split?_eq_some h
        obtain ⟨zeros, hzeros, hfield⟩ := Bytes.exists_zeros_append field
        rw [hfield] at hcount
        exact ⟨zeros, _, hzeros, Bytes.head?_dropZeros field, by omega, hcount, hlength.symm,
          by rw [← hfield]⟩
    · cases h
  · rintro ⟨zeros, digits, hzeros, hdigits, hseven, rfl, hlength, rfl⟩
    have hshort : ¬8 ≤ digits.length := by omega
    simp only [longPayload?, Bytes.split?_append, Bytes.dropZeros_zeros_append hzeros hdigits,
      hshort, ↓reduceIte, hlength]

theorem laxInteger?_eq_some_iff : laxInteger? bytes = some (payload, rest) ↔
    ∃ integer, LaxInteger integer payload ∧ bytes = integer ++ rest := by
  constructor
  · intro h
    match bytes with
    | [] | [_] => cases h
    | tag :: length :: after =>
      rw [laxInteger?_cons] at h
      split_ifs at h with htag hshort
      · obtain rfl : tag = 0x02 := by simpa using htag
        obtain ⟨rfl, hlength⟩ := Bytes.split?_eq_some h
        refine ⟨_, ⟨[length], ?_, rfl⟩, by simp⟩
        rw [hlength]
        exact .short hshort
      · obtain rfl : tag = 0x02 := by simpa using htag
        obtain ⟨zeros, digits, hzeros, hdigits, hseven, hcount, hlength, rfl⟩ :=
          longPayload?_eq_some_iff.mp h
        obtain ⟨hsmall, rfl⟩ := ofNat_count_iff.mp ⟨hshort, hcount⟩
        have hlax := LaxLength.long hzeros hdigits hseven hsmall
        rw [hlength] at hlax
        exact ⟨_, ⟨_, hlax, rfl⟩, by simp only [List.cons_append, List.append_assoc]⟩
  · rintro ⟨_, ⟨field, hfield, rfl⟩, rfl⟩
    generalize hn : payload.length = n at hfield
    cases hfield with
    | short hshort =>
      simp only [List.cons_append, List.nil_append, laxInteger?_cons, ne_eq, not_true_eq_false,
        ↓reduceIte, hshort, ← hn, Bytes.split?_append]
    | @long zeros digits hzeros hdigits hseven hsmall =>
      obtain ⟨hlong, hcount⟩ := ofNat_count_iff.mpr ⟨hsmall, rfl⟩
      simp only [List.cons_append, laxInteger?_cons, ne_eq, not_true_eq_false, ↓reduceIte, hlong]
      exact longPayload?_eq_some_iff.mpr
        ⟨zeros, digits, hzeros, hdigits, hseven, hcount, hn.symm, by simp⟩

/-- The signature that two payloads make: their values, unless one of them is not below the group
order. -/
def ofPayloads (r s : Bytes) : Signature :=
  if Bytes.toNatBE r < Curve.order ∧ Bytes.toNatBE s < Curve.order then
    ofNats (Bytes.toNatBE r) (Bytes.toNatBE s)
  else ofNats 0 0

theorem toNat_ofNat_of_lt_order {n : Nat} (h : n < Curve.order) :
    (BitVec.ofNat 256 n).toNat = n := by
  have hwidth : Curve.order < 2 ^ 256 := by decide
  rw [BitVec.toNat_ofNat, Nat.mod_eq_of_lt (Nat.lt_trans h hwidth)]

theorem laxScalar?_eq (payload : Bytes) : laxScalar? payload =
    if Bytes.toNatBE payload < Curve.order then some (Bytes.toNatBE payload) else none := by
  have hwidth : Curve.order < 256 ^ 32 := by decide
  have hdigits : Bytes.toNatBE payload < Curve.order → (Bytes.dropZeros payload).length ≤ 32 := by
    intro hvalue
    apply Bytes.length_le_of_toNatBE_lt (Bytes.head?_dropZeros payload)
    rw [Bytes.toNatBE_dropZeros]
    exact Nat.lt_trans hvalue hwidth
  simp only [laxScalar?, Bytes.toNatBE_dropZeros]
  by_cases hvalue : Bytes.toNatBE payload < Curve.order
  · rw [if_pos hvalue, if_pos ⟨hdigits hvalue, hvalue⟩]
  · rw [if_neg hvalue, if_neg (mt And.right hvalue)]

theorem ofPayloads_eq (r s : Bytes) :
    (match laxScalar? r, laxScalar? s with
      | some r, some s => .ok (ofNats r s)
      | _, _ => .ok (ofNats 0 0) : Except DerFault Signature) = .ok (ofPayloads r s) := by
  rw [laxScalar?_eq, laxScalar?_eq, ofPayloads]
  by_cases hr : Bytes.toNatBE r < Curve.order
  · by_cases hs : Bytes.toNatBE s < Curve.order
    · simp only [hr, hs, and_self, ↓reduceIte]
    · simp only [hr, hs, and_false, ↓reduceIte]
  · simp only [hr, false_and, ↓reduceIte]

theorem ofDerLax_eq (bytes : Bytes) : ofDerLax bytes = laxSequence bytes >>= fun body =>
    match laxInteger? body with
    | none => .error .badR
    | some (r, rest) =>
      match laxInteger? rest with
      | none => .error .badS
      | some (s, _) => .ok (ofPayloads r s) := by
  unfold ofDerLax
  apply bind_congr
  intro body
  cases laxInteger? body with
  | none => rfl
  | some first =>
    cases hsecond : laxInteger? first.2 with
    | none => simp only [hsecond]
    | some second =>
      simp only [hsecond]
      exact ofPayloads_eq first.1 second.1

theorem ofDerLax_eq_ok_iff :
    ofDerLax bytes = .ok sig ↔ ∃ r s, LaxForm bytes r s ∧ sig = ofPayloads r s := by
  rw [ofDerLax_eq, bind_eq_ok]
  constructor
  · rintro ⟨body, hbody, h⟩
    obtain ⟨head, hhead, rfl⟩ := laxSequence_eq_ok_iff.mp hbody
    split at h
    · cases h
    · next r after hr =>
      split at h
      · cases h
      · next s junk hs =>
        cases h
        obtain ⟨integerR, hintegerR, rfl⟩ := laxInteger?_eq_some_iff.mp hr
        obtain ⟨integerS, hintegerS, rfl⟩ := laxInteger?_eq_some_iff.mp hs
        exact ⟨r, s, ⟨head, integerR, integerS, junk, hhead, hintegerR, hintegerS,
          by simp only [List.append_assoc]⟩, rfl⟩
  · rintro ⟨r, s, ⟨head, integerR, integerS, junk, hhead, hr, hs, rfl⟩, rfl⟩
    rw [List.append_assoc, List.append_assoc]
    refine ⟨_, laxSequence_eq_ok_iff.mpr ⟨head, hhead, rfl⟩, ?_⟩
    simp only [laxInteger?_eq_some_iff.mpr ⟨integerR, hr, rfl⟩,
      laxInteger?_eq_some_iff.mpr ⟨integerS, hs, rfl⟩]

theorem LaxForm.append (h : LaxForm bytes r s) (junk : Bytes) : LaxForm (bytes ++ junk) r s := by
  obtain ⟨head, integerR, integerS, after, hhead, hr, hs, rfl⟩ := h
  exact ⟨head, integerR, integerS, after ++ junk, hhead, hr, hs, by simp⟩

end Grammar

section InPlace

def subtract? (a b : Nat) : Option Nat := if b ≤ a then some (a - b) else none

/-- Passes over zeros, of which there are at most `count`, and tells how much of the count is
left. -/
def zerosInPlace (input : Bytes) : Nat → Nat → Option (Nat × Nat)
  | 0, pos => some (0, pos)
  | count + 1, pos => do
    if (← input[pos]?) = 0 then zerosInPlace input count (pos + 1) else return (count + 1, pos)

/-- Adds `count` more digits to a length of 64 bits. -/
def digitsInPlace (input : Bytes) : Nat → Nat → UInt64 → Option (UInt64 × Nat)
  | 0, pos, value => some (value, pos)
  | count + 1, pos, value => do
    let digit ← input[pos]?
    digitsInPlace input count (pos + 1) ((value <<< 8) + digit.toUInt64)

def payloadInPlace (input : Bytes) (pos length : Nat) : Option (Option (Nat × Nat)) := do
  if (← subtract? input.length pos) < length then return none else return some (pos, length)

def longInPlace (input : Bytes) (pos count : Nat) : Option (Option (Nat × Nat)) := do
  if (← subtract? input.length pos) < count then return none
  let (count, pos) ← zerosInPlace input count pos
  if 8 ≤ count then return none
  let (length, pos) ← digitsInPlace input count pos 0
  payloadInPlace input pos length.toNat

/-- Where the payload of an integer starts, and its length. -/
def laxIntegerInPlace (input : Bytes) (pos : Nat) : Option (Option (Nat × Nat)) := do
  if pos = input.length then return none
  if (← input[pos]?) ≠ 0x02 then return none
  if pos + 1 = input.length then return none
  let length ← input[pos + 1]?
  if length < 0x80 then payloadInPlace input (pos + 2) length.toNat
  else longInPlace input (pos + 2) (← subtract? length.toNat 0x80)

def laxSequenceInPlace (input : Bytes) : Option (Except DerFault Nat) := do
  if input.length = 0 then return .error .noSequenceTag
  if (← input[0]?) ≠ 0x30 then return .error .noSequenceTag
  if input.length = 1 then return .error .noSequenceLength
  let length ← input[1]?
  if length < 0x80 then return .ok 2
  let count ← subtract? length.toNat 0x80
  if (← subtract? input.length 2) < count then return .error .sequenceOverrun
  return .ok (2 + count)

def slice? (input : Bytes) (start length : Nat) : Option Bytes :=
  if start + length ≤ input.length then some ((input.drop start).take length) else none

def scalarInPlace (payload : Bytes) : Option (Option Nat) := do
  let digits := Bytes.dropZeros payload
  if 32 < digits.length then return none
  let word := List.replicate (← subtract? 32 digits.length) 0 ++ digits
  if Bytes.toNatBE word < Curve.order then return some (Bytes.toNatBE word) else return none

/-- The lax reader with a position in its input. What it asks for and is not there makes the answer
nothing. -/
def laxInPlace (input : Bytes) : Option (Except DerFault Signature) := do
  match ← laxSequenceInPlace input with
  | .error fault => return .error fault
  | .ok pos =>
    match ← laxIntegerInPlace input pos with
    | none => return .error .badR
    | some (startR, lengthR) =>
      match ← laxIntegerInPlace input (startR + lengthR) with
      | none => return .error .badS
      | some (startS, lengthS) =>
        let r ← scalarInPlace (← slice? input startR lengthR)
        let s ← scalarInPlace (← slice? input startS lengthS)
        match r, s with
        | some r, some s => return .ok (ofNats r s)
        | _, _ => return .ok (ofNats 0 0)

variable {input body : Bytes} {pos : Nat}

theorem At.subtract (h : At input pos rest) : subtract? input.length pos = some rest.length := by
  obtain ⟨before, rfl, rfl⟩ := h
  simp [subtract?]

theorem At.eq_length_iff (h : At input pos rest) : pos = input.length ↔ rest = [] := by
  obtain ⟨before, rfl, rfl⟩ := h
  simp

theorem At.slice (h : At input pos (payload ++ rest)) :
    slice? input pos payload.length = some payload := by
  obtain ⟨before, rfl, rfl⟩ := h
  simp [slice?]

theorem zerosInPlace_eq (h : At input pos (digits ++ rest)) :
    ∃ pos', zerosInPlace input digits.length pos = some ((Bytes.dropZeros digits).length, pos') ∧
      At input pos' (Bytes.dropZeros digits ++ rest) := by
  induction digits generalizing pos with
  | nil => exact ⟨pos, rfl, h⟩
  | cons b digits ih =>
    rw [List.length_cons, zerosInPlace, h.read]
    by_cases hb : b = 0
    · subst hb
      exact ih h.next
    · rw [Bytes.dropZeros_cons_of_ne hb]
      exact ⟨pos, if_neg hb, h⟩

theorem toNat_shift_add {value : UInt64} (h : (value.toNat + 1) * 256 ≤ 2 ^ 64) (digit : UInt8) :
    ((value <<< 8) + digit.toUInt64).toNat = value.toNat * 256 + digit.toNat := by
  have hdigit := digit.toNat_lt
  have hshift : (value <<< 8).toNat = value.toNat * 256 := by
    rw [UInt64.toNat_shiftLeft, Nat.shiftLeft_eq]
    exact Nat.mod_eq_of_lt (show value.toNat * 256 < 2 ^ 64 by omega)
  rw [UInt64.toNat_add, hshift, UInt8.toNat_toUInt64]
  exact Nat.mod_eq_of_lt (by omega)

theorem digitsInPlace_eq {value : UInt64} (h : At input pos (digits ++ rest))
    (hfits : (value.toNat + 1) * 256 ^ digits.length ≤ 2 ^ 64) :
    ∃ value', digitsInPlace input digits.length pos value = some (value', pos + digits.length) ∧
      value'.toNat = value.toNat * 256 ^ digits.length + Bytes.toNatBE digits := by
  induction digits generalizing pos value with
  | nil => exact ⟨value, rfl, by simp [Bytes.toNatBE, Bytes.toNatLE]⟩
  | cons b digits ih =>
    have hb := b.toNat_lt
    rw [List.length_cons, Nat.pow_succ] at hfits
    have hpow : 0 < 256 ^ digits.length := Nat.pow_pos (by decide)
    have hstep : (value.toNat + 1) * 256 ≤ 2 ^ 64 :=
      calc (value.toNat + 1) * 256
          ≤ (value.toNat + 1) * (256 ^ digits.length * 256) :=
            Nat.mul_le_mul_left _ (Nat.le_mul_of_pos_left _ hpow)
        _ ≤ 2 ^ 64 := hfits
    have hvalue := toNat_shift_add hstep b
    have hrest : (((value <<< 8) + b.toUInt64).toNat + 1) * 256 ^ digits.length ≤ 2 ^ 64 :=
      calc (((value <<< 8) + b.toUInt64).toNat + 1) * 256 ^ digits.length
          ≤ ((value.toNat + 1) * 256) * 256 ^ digits.length :=
            Nat.mul_le_mul_right _ (by omega)
        _ = (value.toNat + 1) * (256 ^ digits.length * 256) := by ring
        _ ≤ 2 ^ 64 := hfits
    obtain ⟨value', hread, hvalue'⟩ := ih h.next hrest
    refine ⟨value', ?_, ?_⟩
    · simp only [List.length_cons, digitsInPlace, h.read, Option.bind_eq_bind, Option.bind_some,
        hread]
      rw [Nat.add_assoc, Nat.add_comm 1]
    · rw [hvalue', hvalue, Bytes.toNatBE_cons, List.length_cons, Nat.pow_succ]
      ring

/-- What the reader without positions takes off the front is found where it lies. -/
inductive Found (input : Bytes) : Option (Bytes × Bytes) → Option (Nat × Nat) → Prop
  | nothing : Found input none none
  | payload {start : Nat} {payload rest : Bytes} : At input start (payload ++ rest) →
    Found input (some (payload, rest)) (some (start, payload.length))

theorem payloadInPlace_found (h : At input pos body) (length : Nat) :
    ∃ found, payloadInPlace input pos length = some found ∧
      Found input (Bytes.split? length body) found := by
  simp only [payloadInPlace, h.subtract, Option.bind_eq_bind, Option.bind_some]
  cases hsplit : Bytes.split? length body with
  | none =>
    have hshort : body.length < length := Bytes.split?_eq_none_iff.mp hsplit
    exact ⟨none, if_pos hshort, .nothing⟩
  | some parts =>
    obtain ⟨rfl, rfl⟩ := Bytes.split?_eq_some hsplit
    refine ⟨some (pos, parts.1.length), if_neg ?_, .payload h⟩
    simp

theorem subtract?_of_not_lt {length : UInt8} (h : ¬length < 0x80) :
    subtract? length.toNat 0x80 = some (length.toNat - 0x80) := by
  rw [UInt8.lt_iff_toNat_lt] at h
  exact if_pos (Nat.not_lt.mp h)

theorem longInPlace_found (h : At input pos body) (count : Nat) :
    ∃ found, longInPlace input pos count = some found ∧
      Found input (longPayload? count body) found := by
  simp only [longInPlace, h.subtract, Option.bind_eq_bind, Option.bind_some]
  cases hsplit : Bytes.split? count body with
  | none =>
    have hshort : body.length < count := Bytes.split?_eq_none_iff.mp hsplit
    exact ⟨none, if_pos hshort, by simpa only [longPayload?, hsplit] using .nothing⟩
  | some parts =>
    obtain ⟨rfl, rfl⟩ := Bytes.split?_eq_some hsplit
    obtain ⟨pos', hzeros, hdigits⟩ := zerosInPlace_eq h
    simp only [longPayload?, hsplit, hzeros, Option.bind_some, List.length_append]
    rw [if_neg (by omega)]
    by_cases hlong : 8 ≤ (Bytes.dropZeros parts.1).length
    · simp only [hlong, ↓reduceIte]
      exact ⟨none, rfl, .nothing⟩
    · -- Fewer than eight digits fit into the 64 bits in which they are added up.
      have hfits : ((0 : UInt64).toNat + 1) * 256 ^ (Bytes.dropZeros parts.1).length ≤ 2 ^ 64 :=
        calc ((0 : UInt64).toNat + 1) * 256 ^ (Bytes.dropZeros parts.1).length
            = 256 ^ (Bytes.dropZeros parts.1).length := Nat.one_mul _
          _ ≤ 256 ^ 8 := Nat.pow_le_pow_right (by decide) (by omega)
          _ = 2 ^ 64 := by decide
      obtain ⟨length, hread, hlength⟩ := digitsInPlace_eq hdigits hfits
      have hvalue : length.toNat = Bytes.toNatBE (Bytes.dropZeros parts.1) := by
        simpa using hlength
      simp only [hlong, ↓reduceIte, hread, Option.bind_some, hvalue]
      exact payloadInPlace_found hdigits.skip _

theorem laxIntegerInPlace_found (h : At input pos body) :
    ∃ found, laxIntegerInPlace input pos = some found ∧ Found input (laxInteger? body) found := by
  unfold laxIntegerInPlace
  match body with
  | [] => exact ⟨none, if_pos (h.eq_length_iff.mpr rfl), .nothing⟩
  | [tag] =>
    refine ⟨none, ?_, .nothing⟩
    rw [if_neg (mt h.eq_length_iff.mp (by simp)), h.read, if_pos (h.next.eq_length_iff.mpr rfl)]
    simp only [Option.bind_eq_bind, Option.bind_some]
    exact ite_self _
  | tag :: length :: rest =>
    rw [if_neg (mt h.eq_length_iff.mp (by simp)), h.read,
      if_neg (mt h.next.eq_length_iff.mp (by simp)), h.next.read, laxInteger?_cons]
    simp only [Option.bind_eq_bind, Option.bind_some]
    by_cases htag : tag = 0x02
    · rw [if_neg (not_not.mpr htag), if_neg (not_not.mpr htag)]
      by_cases hshort : length < 0x80
      · rw [if_pos hshort, if_pos hshort]
        exact payloadInPlace_found h.next.next _
      · rw [if_neg hshort, if_neg hshort, subtract?_of_not_lt hshort]
        exact longInPlace_found h.next.next _
    · rw [if_pos htag, if_pos htag]
      exact ⟨none, rfl, .nothing⟩

/-- What the reader without positions leaves of a sequence starts at the position reached; what it
refuses is refused for the same reason. -/
inductive Reached (input : Bytes) : Except DerFault Bytes → Except DerFault Nat → Prop
  | refused {fault : DerFault} : Reached input (.error fault) (.error fault)
  | body {pos : Nat} {body : Bytes} : At input pos body → Reached input (.ok body) (.ok pos)

theorem laxSequenceInPlace_reached (input : Bytes) : ∃ reached,
    laxSequenceInPlace input = some reached ∧ Reached input (laxSequence input) reached := by
  unfold laxSequenceInPlace
  match input with
  | [] => exact ⟨_, rfl, .refused⟩
  | [tag] =>
    by_cases htag : tag = 0x30
    · refine ⟨.error .noSequenceLength, ?_, ?_⟩
      · simp [htag]
      · simpa [laxSequence, htag] using .refused
    · refine ⟨.error .noSequenceTag, ?_, ?_⟩
      · simp [htag]
      · simpa [laxSequence, htag] using .refused
  | tag :: length :: rest =>
    have h : At (tag :: length :: rest) 2 rest := ⟨[tag, length], rfl, rfl⟩
    have hsize := h.subtract
    simp only [List.length_cons] at hsize
    simp only [List.length_cons, Nat.add_eq_zero_iff, Nat.one_ne_zero, and_false, ↓reduceIte,
      List.getElem?_cons_zero, List.getElem?_cons_succ, Option.bind_eq_bind, Option.bind_some,
      Nat.add_eq_right, laxSequence, hsize]
    by_cases htag : tag = 0x30
    · rw [if_neg (not_not.mpr htag), if_neg (not_not.mpr htag)]
      by_cases hshort : length < 0x80
      · rw [if_pos hshort, if_pos hshort]
        exact ⟨.ok 2, rfl, .body h⟩
      · rw [if_neg hshort, if_neg hshort, subtract?_of_not_lt hshort]
        simp only [Option.bind_some]
        cases hsplit : Bytes.split? (length.toNat - 0x80) rest with
        | none => exact ⟨_, if_pos (Bytes.split?_eq_none_iff.mp hsplit), .refused⟩
        | some parts =>
          obtain ⟨rfl, hfield⟩ := Bytes.split?_eq_some hsplit
          rw [← hfield, if_neg (by simp)]
          exact ⟨_, rfl, .body h.skip⟩
    · rw [if_pos htag, if_pos htag]
      exact ⟨_, rfl, .refused⟩

theorem scalarInPlace_eq (payload : Bytes) : scalarInPlace payload = some (laxScalar? payload) := by
  unfold scalarInPlace laxScalar?
  by_cases hlong : 32 < (Bytes.dropZeros payload).length
  · simp [hlong, Nat.not_le.mpr hlong]
  · have hfits : (Bytes.dropZeros payload).length ≤ 32 := Nat.not_lt.mp hlong
    have hvalue (n : Nat) : Bytes.toNatBE (List.replicate n 0 ++ Bytes.dropZeros payload) =
        Bytes.toNatBE (Bytes.dropZeros payload) :=
      Bytes.toNatBE_zeros_append (fun b hb => List.eq_of_mem_replicate hb) _
    simp only [hlong, ↓reduceIte, subtract?, hfits, Option.bind_eq_bind, Option.bind_some, hvalue,
      true_and]
    exact (apply_ite some _ _ _).symm

theorem laxInPlace_eq (input : Bytes) : laxInPlace input = some (ofDerLax input) := by
  unfold laxInPlace ofDerLax
  obtain ⟨reached, hreached, hsequence⟩ := laxSequenceInPlace_reached input
  simp only [hreached, Option.bind_eq_bind, Option.bind_some]
  generalize laxSequence input = sequence at hsequence ⊢
  cases hsequence with
  | refused => rfl
  | body h =>
    -- The second integer is sought where the payload of the first one ends.
    obtain ⟨foundR, hfoundR, hfirst⟩ := laxIntegerInPlace_found h
    simp only [hfoundR, Option.bind_some, bind, Except.bind]
    generalize laxInteger? _ = first at hfirst ⊢
    cases hfirst with
    | nothing => rfl
    | @payload _ r _ hr =>
      obtain ⟨foundS, hfoundS, hsecond⟩ := laxIntegerInPlace_found hr.skip
      simp only [hfoundS, Option.bind_some]
      generalize laxInteger? _ = second at hsecond ⊢
      cases hsecond with
      | nothing => rfl
      | @payload _ s _ hs =>
        simp only [hr.slice, hs.slice, Option.bind_some, scalarInPlace_eq]
        cases laxScalar? r with
        | none => rfl
        | some r =>
          cases laxScalar? s with
          | none => rfl
          | some s => rfl

end InPlace

/-- The lax reader accepts exactly a sequence of two integers with anything after it. It returns
their values in 32 bytes each, or zeros if one of them is not below the group order, and bytes added
at the end do not change that. With a position it gives the same answer on every input, so that
each byte it asks for is there. -/
theorem laxReader_accepts_laxForm (x : Bytes) :
    ((∃ sig, ofDerLax x = .ok sig) ↔ ∃ r s, LaxForm x r s) ∧
    (∀ r s, LaxForm x r s → ∃ sig, ofDerLax x = .ok sig ∧
      if Bytes.toNatBE r < Curve.order ∧ Bytes.toNatBE s < Curve.order then
        wordBytes sig.r = Bytes.ofNatBE 32 (Bytes.toNatBE r) ∧
          wordBytes sig.s = Bytes.ofNatBE 32 (Bytes.toNatBE s)
      else wordBytes sig.r = List.replicate 32 0 ∧ wordBytes sig.s = List.replicate 32 0) ∧
    (∀ sig junk, ofDerLax x = .ok sig → ofDerLax (x ++ junk) = .ok sig) ∧
    laxInPlace x = some (ofDerLax x) := by
  refine ⟨?_, ?_, ?_, laxInPlace_eq x⟩
  · constructor
    · rintro ⟨sig, hsig⟩
      obtain ⟨r, s, hform, -⟩ := ofDerLax_eq_ok_iff.mp hsig
      exact ⟨r, s, hform⟩
    · rintro ⟨r, s, hform⟩
      exact ⟨_, ofDerLax_eq_ok_iff.mpr ⟨r, s, hform, rfl⟩⟩
  · intro r s hform
    refine ⟨_, ofDerLax_eq_ok_iff.mpr ⟨r, s, hform, rfl⟩, ?_⟩
    unfold ofPayloads
    split
    · next hvalues =>
      simp only [ofNats, wordBytes, toNat_ofNat_of_lt_order hvalues.1,
        toNat_ofNat_of_lt_order hvalues.2, and_self]
    · exact ⟨by decide, by decide⟩
  · intro sig junk hsig
    obtain ⟨r, s, hform, rfl⟩ := ofDerLax_eq_ok_iff.mp hsig
    exact ofDerLax_eq_ok_iff.mpr ⟨r, s, hform.append junk, rfl⟩

/-- A sequence that states no length, with a padded length in its first integer. -/
theorem laxReader_accepts_laxForm_padded :
    ∃ sig, wordBytes sig.r = Bytes.ofNatBE 32 5 ∧ wordBytes sig.s = Bytes.ofNatBE 32 7 ∧
      ∀ junk, ofDerLax ([0x30, 0x80, 0x02, 0x82, 0, 1, 5, 0x02, 1, 7] ++ junk) = .ok sig := by
  have hlength : LaxLength [0x82, 0, 1] 1 :=
    @LaxLength.long [0] [1] (by simp) (by decide) (by decide) (by decide)
  have hform : LaxForm [0x30, 0x80, 0x02, 0x82, 0, 1, 5, 0x02, 1, 7] [5] [7] :=
    ⟨[0x80], [0x02, 0x82, 0, 1, 5], [0x02, 1, 7], [], @LaxHead.long [] (by decide),
      ⟨[0x82, 0, 1], hlength, rfl⟩, ⟨[1], .short (by decide), rfl⟩, rfl⟩
  obtain ⟨-, hvalues, hjunk, -⟩ :=
    laxReader_accepts_laxForm [0x30, 0x80, 0x02, 0x82, 0, 1, 5, 0x02, 1, 7]
  obtain ⟨sig, hsig, hwords⟩ := hvalues [5] [7] hform
  rw [if_pos (by decide)] at hwords
  exact ⟨sig, hwords.1, hwords.2, fun junk => hjunk sig junk hsig⟩

end CoinScript.Signature
