import CoinScript.Proofs.WireForm
import CoinScript.Script.Pattern

/-! # Records of critical data

A record travels in two ways: on the wire, with the payload behind its length and in front of the
hash, and in an output script, with the hash in the commitment and the payload behind it. Either way
the bytes determine the record and the record the bytes. Reading off the wire notices a lack of
bytes before it looks at what it has read.
-/
namespace CoinScript

namespace CriticalData

open Reader

variable {payload hash body input rest : Bytes} {record : CriticalData} {length : UInt8}

section Parts

theorem ofParts_parts (record : CriticalData) :
    ofParts record.payload record.hash = .ok record := by
  have hpayload := record.payload_length
  unfold ofParts
  rw [dif_pos record.hash_length, dif_neg (by omega), dif_neg (by omega)]

theorem ofParts_eq_ok_iff :
    ofParts payload hash = .ok record ↔ record.payload = payload ∧ record.hash = hash := by
  constructor
  · intro h
    unfold ofParts at h
    split at h
    · split at h
      · cases h
      · split at h
        · cases h
        · cases h
          exact ⟨rfl, rfl⟩
    · cases h
  · rintro ⟨rfl, rfl⟩
    exact ofParts_parts record

end Parts

section Wire

/-- With all bytes there, the outcome depends on the parts alone. -/
theorem read_of_whole (hpayload : payload.length = length.toNat) (hhash : hash.length = hashSize) :
    read (length :: (payload ++ (hash ++ rest))) = (ofParts payload hash, rest) := by
  have hlength : Wire.byte (length :: (payload ++ (hash ++ rest))) =
      (.ok length, payload ++ (hash ++ rest)) := rfl
  have hfirst : Wire.take length.toNat (payload ++ (hash ++ rest)) = (.ok payload, hash ++ rest) :=
    hpayload ▸ Wire.take_append payload (hash ++ rest)
  have hsecond : Wire.take hashSize (hash ++ rest) = (.ok hash, rest) :=
    hhash ▸ Wire.take_append hash rest
  refine (bind_of_ok (mapError_of_ok _ hlength)).trans ?_
  refine (bind_of_ok (mapError_of_ok _ hfirst)).trans ?_
  refine (bind_of_ok (mapError_of_ok _ hsecond)).trans ?_
  exact ofExcept_run _

/-- A lack of bytes is noticed first, whatever the length says. -/
theorem read_of_short (h : body.length < length.toNat + hashSize) :
    ∃ left, read (length :: body) = (.error (.wire .pastEnd), left) := by
  have hlength : Wire.byte (length :: body) = (.ok length, body) := rfl
  by_cases hpayload : body.length < length.toNat
  · refine ⟨body, (bind_of_ok (mapError_of_ok _ hlength)).trans ?_⟩
    exact bind_of_error (mapError_of_error _ (Wire.take_of_short hpayload))
  · obtain ⟨payload, left, hbody, hfront⟩ : ∃ payload left, body = payload ++ left ∧
        payload.length = length.toNat :=
      ⟨_, _, (List.take_append_drop _ body).symm, List.length_take_of_le (Nat.not_lt.mp hpayload)⟩
    have hfirst : Wire.take length.toNat body = (.ok payload, left) :=
      Wire.take_eq_ok_iff.mpr ⟨hbody, hfront⟩
    have hshort : left.length < hashSize := by
      rw [hbody, List.length_append] at h
      omega
    refine ⟨left, (bind_of_ok (mapError_of_ok _ hlength)).trans ?_⟩
    refine (bind_of_ok (mapError_of_ok _ hfirst)).trans ?_
    exact bind_of_error (mapError_of_error _ (Wire.take_of_short hshort))

theorem toNat_length (record : CriticalData) :
    (UInt8.ofNat record.payload.length).toNat = record.payload.length := by
  have hmax : record.payload.length ≤ 255 := record.payload_length.2
  rw [UInt8.toNat_ofNat']
  omega

theorem encode_append (record : CriticalData) (rest : Bytes) : encode record ++ rest =
    UInt8.ofNat record.payload.length :: (record.payload ++ (record.hash ++ rest)) := by
  rw [encode, List.append_assoc, List.cons_append]

theorem read_encode (record : CriticalData) (rest : Bytes) :
    read (encode record ++ rest) = (.ok record, rest) := by
  rw [encode_append, read_of_whole record.toNat_length.symm record.hash_length, ofParts_parts]

theorem read_of_cut (hfront : input <+: encode record) (hcut : input ≠ encode record) :
    ∃ left, read input = (.error (.wire .pastEnd), left) := by
  cases input with
  | nil => exact ⟨[], rfl⟩
  | cons length body =>
    obtain ⟨rfl, hbody⟩ : length = UInt8.ofNat record.payload.length ∧
        body <+: record.payload ++ record.hash := List.cons_prefix_cons.mp hfront
    have hlength : body.length ≠ (record.payload ++ record.hash).length := by
      intro heq
      exact hcut (congrArg _ (hbody.eq_of_length heq))
    have hshort := Nat.lt_of_le_of_ne hbody.length_le hlength
    rw [List.length_append, ← record.toNat_length, record.hash_length] at hshort
    exact read_of_short hshort

theorem eq_encode_of_read (h : read input = (.ok record, rest)) :
    input = encode record ++ rest := by
  cases input with
  | nil => cases h
  | cons length body =>
    by_cases hshort : body.length < length.toNat + hashSize
    · obtain ⟨left, hread⟩ := read_of_short hshort
      rw [hread] at h
      cases h
    · obtain ⟨payload, hash, left, rfl, hpayload, hhash⟩ : ∃ payload hash left,
          body = payload ++ (hash ++ left) ∧ payload.length = length.toNat ∧
            hash.length = hashSize := by
        refine ⟨body.take length.toNat, (body.drop length.toNat).take hashSize,
          (body.drop length.toNat).drop hashSize, ?_, ?_, ?_⟩
        · rw [List.take_append_drop, List.take_append_drop]
        · exact List.length_take_of_le (by omega)
        · exact List.length_take_of_le (by rw [List.length_drop]; omega)
      rw [read_of_whole hpayload hhash] at h
      obtain ⟨hparts, rfl⟩ := Prod.mk.inj h
      obtain ⟨rfl, rfl⟩ := ofParts_eq_ok_iff.mp hparts
      rw [encode_append, hpayload, UInt8.ofNat_toNat]

end Wire

end CriticalData

namespace Script

variable {s : Script} {hash payload : Bytes} {record : CriticalData}

theorem criticalParts?_eq_some_iff : s.criticalParts? = some (hash, payload) ↔
    s = [0x6a, 0x24, 0xd1, 0x61, 0x73, 0x68] ++ hash ++ payload ∧ hash.length = 32 := by
  have hmark : Opcode.earlyReturn :: 36 :: criticalMagic = [0x6a, 0x24, 0xd1, 0x61, 0x73, 0x68] :=
    rfl
  unfold criticalParts?
  rw [hmark]
  constructor
  · intro h
    split at h
    · next rest hrest =>
      obtain ⟨rfl, hhash⟩ := Bytes.split?_eq_some h
      rw [List.append_assoc]
      exact ⟨Bytes.after?_eq_some_iff.mp hrest, hhash⟩
    · cases h
  · rintro ⟨rfl, hhash⟩
    rw [List.append_assoc, Bytes.after?_eq_some_iff.mpr rfl, ← hhash]
    exact Bytes.split?_append hash payload

theorem criticalData?_eq_some_iff : s.criticalData? = some record ↔
    s = [0x6a, 0x24, 0xd1, 0x61, 0x73, 0x68] ++ record.hash ++ record.payload := by
  unfold criticalData?
  constructor
  · intro h
    split at h
    · next hash payload hparts =>
      obtain ⟨hs, -⟩ := criticalParts?_eq_some_iff.mp hparts
      cases hrecord : CriticalData.ofParts payload hash with
      | error fault =>
        rw [hrecord] at h
        cases h
      | ok found =>
        rw [hrecord] at h
        cases h
        obtain ⟨rfl, rfl⟩ := CriticalData.ofParts_eq_ok_iff.mp hrecord
        exact hs
    · cases h
  · intro h
    rw [criticalParts?_eq_some_iff.mpr ⟨h, record.hash_length⟩]
    simp only [CriticalData.ofParts_parts]
    rfl

end Script

/-- The two carriers of a record. A record that can be built is read back as it was written, and
what follows it is left; a part that it starts with is refused for want of bytes; and nothing but
what is written for a record is read as that record. A script carries a record exactly if it is a
`RETURN`, the push of the magic and the hash, and the payload, with parts of the right lengths. -/
theorem critical_records_exact :
    (∀ (payload hash : Bytes) (record : CriticalData),
      CriticalData.ofParts payload hash = .ok record →
      (record.payload = payload ∧ record.hash = hash) ∧
      (∀ tail, CriticalData.read (record.encode ++ tail) = (.ok record, tail)) ∧
      ∀ front, front <+: record.encode → front ≠ record.encode →
        ∃ left, CriticalData.read front = (.error (.wire .pastEnd), left)) ∧
    (∀ (input : Bytes) (record : CriticalData) (rest : Bytes),
      CriticalData.read input = (.ok record, rest) → input = record.encode ++ rest) ∧
    ∀ (s : Script) (payload hash : Bytes),
      (∃ record, s.criticalData? = some record ∧ record.payload = payload ∧ record.hash = hash) ↔
        s = [0x6a, 0x24, 0xd1, 0x61, 0x73, 0x68] ++ hash ++ payload ∧ hash.length = 32 ∧
          4 ≤ payload.length ∧ payload.length ≤ 255 := by
  refine ⟨?_, ?_, ?_⟩
  · intro payload hash record h
    refine ⟨CriticalData.ofParts_eq_ok_iff.mp h, record.read_encode, ?_⟩
    intro front hfront hcut
    exact CriticalData.read_of_cut hfront hcut
  · intro input record rest h
    exact CriticalData.eq_encode_of_read h
  · intro s payload hash
    simp only [Script.criticalData?_eq_some_iff]
    constructor
    · rintro ⟨record, hs, rfl, rfl⟩
      exact ⟨hs, record.hash_length, record.payload_length⟩
    · rintro ⟨hs, hhash, hpayload⟩
      exact ⟨⟨payload, hash, hpayload, hhash⟩, hs, rfl, rfl⟩

/-- A request with the shortest payload, on the wire with a byte behind it, broken off, and in a
script. -/
theorem critical_records_exact_request :
    let payload : Bytes := [0x00, 0xbf, 0x00, 0x07]
    let hash : Bytes := List.replicate 32 0x11
    ∃ record, CriticalData.ofParts payload hash = .ok record ∧
      CriticalData.read (record.encode ++ [0xee]) = (.ok record, [0xee]) ∧
      (∃ left, CriticalData.read [0x04, 0x00] = (.error (.wire .pastEnd), left)) ∧
      ∃ found, Script.criticalData? ([0x6a, 0x24, 0xd1, 0x61, 0x73, 0x68] ++ hash ++ payload) =
        some found ∧ found.payload = payload ∧ found.hash = hash := by
  intro payload hash
  obtain ⟨hwire, -, hscript⟩ := critical_records_exact
  let record : CriticalData := ⟨payload, hash, by decide, by decide⟩
  have hparts : CriticalData.ofParts payload hash = .ok record := rfl
  obtain ⟨-, hread, hcut⟩ := hwire payload hash record hparts
  have hencode : record.encode = [0x04, 0x00] ++ ([0xbf, 0x00, 0x07] ++ hash) := rfl
  refine ⟨record, hparts, hread [0xee], ?_, ?_⟩
  · apply hcut
    · exact ⟨_, hencode.symm⟩
    · intro heq
      have hlength := congrArg List.length heq
      rw [hencode] at hlength
      cases hlength
  · exact (hscript _ payload hash).mpr ⟨rfl, by decide, by decide, by decide⟩

end CoinScript
