import CoinScript.Proofs.CriticalRecord
import CoinScript.Proofs.OutputScript

/-! # Patterns as instructions

Outputs of a known kind are recognised by bytes at fixed places, without decoding the script. The
bytes of a pattern are those of a few whole instructions, and no other script decodes to them: a
pattern is never found inside the data of a longer push or of one that is cut.
-/
namespace CoinScript

namespace Instruction

/-- A push that has the length of its data for an opcode. -/
def direct (data : Bytes) : Instruction := { opcode := UInt8.ofNat data.length, data }

variable {data : Bytes}

theorem ofData_eq_direct (h : data.length ≤ 75) : ofData data = direct data := ofData_of_direct h

theorem wellFormed_direct (h : data.length ≤ 75) : (direct data).WellFormed := by
  rw [← ofData_eq_direct h]
  exact wellFormed_ofData (by omega)

theorem encode_direct (h : data.length ≤ 75) :
    (direct data).encode = UInt8.ofNat data.length :: data := by
  rw [← ofData_eq_direct h, encode_ofData_of_direct h]

theorem wellFormed_of_smallInt {opcode : UInt8} {n : Int} (h : Opcode.smallInt? opcode = some n) :
    (ofOpcode opcode).WellFormed ∧ (ofOpcode opcode).encode = [opcode] := by
  by_cases hzero : opcode = 0
  · subst hzero
    have hempty : (direct []).WellFormed := wellFormed_direct (by decide)
    exact ⟨hempty, rfl⟩
  · have hall : ∀ opcode, opcode ≠ 0 → (Opcode.smallInt? opcode).isSome = true →
        Opcode.isPush opcode = false ∧ (ofOpcode opcode).encode = [opcode] :=
      Opcode.forall_byte (by decide +kernel)
    obtain ⟨hbare, hencode⟩ := hall opcode hzero (by rw [h]; rfl)
    exact ⟨wellFormed_ofOpcode hbare, hencode⟩

end Instruction

theorem Opcode.smallInt?_eq_some_natCast_iff {opcode : UInt8} {n : Nat} :
    smallInt? opcode = some (n : Int) ↔
      opcode = 0 ∧ n = 0 ∨ (one ≤ opcode ∧ opcode ≤ sixteen) ∧ n = smallValue opcode := by
  have hnegate : ¬(one ≤ negate1 ∧ negate1 ≤ sixteen) := by decide
  have hzero : ¬(one ≤ 0 ∧ 0 ≤ sixteen) := by decide
  unfold smallInt?
  split_ifs with h0 h1 h2
  · subst h0
    simp only [hzero, false_and, or_false, true_and, Option.some.injEq]
    omega
  · subst h1
    simp only [hnegate, h0, false_and, or_false, Option.some.injEq, iff_false]
    omega
  · simp only [h0, h2, smallValue, Option.some.injEq, false_and, and_self, true_and, false_or]
    omega
  · simp [h0, h2]

namespace Script

variable {s : Script} {inss front : List Instruction}

section Decoding

/-- A script decodes to a sequence exactly if it is what the sequence is written as. -/
theorem instructions_eq_iff (h : Sequence inss) :
    s.instructions = inss ↔ s = ofInstructions inss := by
  constructor
  · rintro rfl
    exact (sequence_instructions s).2.symm
  · rintro rfl
    exact instructions_ofInstructions h

theorem instructions_append (h : ∀ ins ∈ front, ins.WellFormed) (tail : Script) :
    (ofInstructions front ++ tail).instructions = front ++ tail.instructions := by
  unfold instructions
  induction front with
  | nil => rfl
  | cons ins front ih =>
    obtain ⟨hins, hfront⟩ := List.forall_mem_cons.mp h
    rw [ofInstructions_cons, List.append_assoc, located_of_wellFormed hins, List.map_cons,
      ih hfront, List.cons_append]

theorem exists_instructions_append_iff (h : ∀ ins ∈ front, ins.WellFormed) :
    (∃ rest, s.instructions = front ++ rest) ↔ ∃ tail, s = ofInstructions front ++ tail := by
  constructor
  · rintro ⟨rest, hrest⟩
    refine ⟨ofInstructions rest, ?_⟩
    rw [← ofInstructions_append, ← hrest, (sequence_instructions s).2]
  · rintro ⟨tail, rfl⟩
    exact ⟨tail.instructions, instructions_append h tail⟩

end Decoding

section Patterns

variable {hash program data : Bytes} {version : Nat}

theorem scriptHash?_eq_some_iff_instructions : s.scriptHash? = some hash ↔ hash.length = 20 ∧
    s.instructions = [.ofOpcode Opcode.hash160, .direct hash, .ofOpcode Opcode.equal] := by
  rw [scriptHash?_eq_some_iff]
  refine and_congr_right fun hlength => ?_
  have hsequence : Sequence [.ofOpcode Opcode.hash160, .direct hash, .ofOpcode Opcode.equal] :=
    .cons (Instruction.wellFormed_ofOpcode rfl)
      (.cons (Instruction.wellFormed_direct (by omega))
        (.cons (Instruction.wellFormed_ofOpcode rfl) .nil))
  rw [instructions_eq_iff hsequence]
  simp only [ofInstructions, List.flatMap_cons, List.flatMap_nil,
    Instruction.encode_direct (show hash.length ≤ 75 by omega), hlength]
  rfl

theorem isKeyHash_iff : s.isKeyHash = true ↔ ∃ hash, hash.length = 20 ∧ s = payToKeyHash hash := by
  constructor
  · intro h
    unfold isKeyHash at h
    split at h
    · next a b c rest =>
      split at h
      · next hash d e hsplit =>
        obtain ⟨rfl, hlength⟩ := Bytes.split?_eq_some hsplit
        simp only [Bool.and_eq_true, decide_eq_true_eq] at h
        obtain ⟨⟨⟨⟨rfl, rfl⟩, rfl⟩, rfl⟩, rfl⟩ := h
        exact ⟨hash, hlength, (payToKeyHash_of_length hlength).symm⟩
      · cases h
    · cases h
  · rintro ⟨hash, hlength, rfl⟩
    have hsplit := Bytes.split?_append hash [0x88, 0xac]
    rw [hlength] at hsplit
    rw [payToKeyHash_of_length hlength]
    simp only [isKeyHash, hsplit]
    rfl

theorem isKeyHash_iff_instructions : s.isKeyHash = true ↔ ∃ hash, hash.length = 20 ∧
    s.instructions = [.ofOpcode Opcode.dup, .ofOpcode Opcode.hash160, .direct hash,
      .ofOpcode Opcode.equalVerify, .ofOpcode Opcode.checkSig] := by
  rw [isKeyHash_iff]
  refine exists_congr fun hash => and_congr_right fun hlength => ?_
  have hsequence : Sequence [.ofOpcode Opcode.dup, .ofOpcode Opcode.hash160, .direct hash,
      .ofOpcode Opcode.equalVerify, .ofOpcode Opcode.checkSig] :=
    .cons (Instruction.wellFormed_ofOpcode rfl)
      (.cons (Instruction.wellFormed_ofOpcode rfl)
        (.cons (Instruction.wellFormed_direct (by omega))
          (.cons (Instruction.wellFormed_ofOpcode rfl)
            (.cons (Instruction.wellFormed_ofOpcode rfl) .nil))))
  rw [instructions_eq_iff hsequence, payToKeyHash_of_length hlength]
  simp only [ofInstructions, List.flatMap_cons, List.flatMap_nil,
    Instruction.encode_direct (show hash.length ≤ 75 by omega), hlength]
  rfl

theorem witnessProgram?_eq_some_iff : s.witnessProgram? = some (version, program) ↔
    (2 ≤ program.length ∧ program.length ≤ 40) ∧ ∃ first,
      Opcode.smallInt? first = some (version : Int) ∧
        s = first :: (Instruction.direct program).encode := by
  simp only [Opcode.smallInt?_eq_some_natCast_iff]
  constructor
  · intro h
    obtain ⟨first, hs, hlong, hshort, hfirst⟩ := witnessProgram?_eq_some h
    rw [Instruction.ofData_eq_direct (by omega)] at hs
    exact ⟨⟨hlong, hshort⟩, first, hfirst, hs⟩
  · rintro ⟨⟨hlong, hshort⟩, first, hfirst, rfl⟩
    have hlength : (UInt8.ofNat program.length).toNat = program.length := by
      rw [UInt8.toNat_ofNat']
      omega
    rw [Instruction.encode_direct (by omega)]
    simp only [witnessProgram?, hlength, hlong, hshort, and_self, ↓reduceIte]
    rcases hfirst with ⟨rfl, rfl⟩ | ⟨hsmall, rfl⟩
    · rfl
    · have hzero : first ≠ 0 := by
        rintro rfl
        exact absurd hsmall (by decide)
      rw [if_neg hzero, if_pos hsmall]
      rfl

theorem witnessProgram?_eq_some_iff_instructions : s.witnessProgram? = some (version, program) ↔
    (2 ≤ program.length ∧ program.length ≤ 40) ∧ ∃ first,
      Opcode.smallInt? first = some (version : Int) ∧
        s.instructions = [.ofOpcode first, .direct program] := by
  rw [witnessProgram?_eq_some_iff]
  refine and_congr_right fun hlength => exists_congr fun first => and_congr_right fun hfirst => ?_
  obtain ⟨hwhole, hencode⟩ := Instruction.wellFormed_of_smallInt hfirst
  have hsequence : Sequence [.ofOpcode first, .direct program] :=
    .cons hwhole (.cons (Instruction.wellFormed_direct (by omega)) .nil)
  rw [instructions_eq_iff hsequence, ofInstructions_cons, hencode, ofInstructions_singleton]
  rfl

theorem isCriticalCommit_iff : s.isCriticalCommit = true ↔ ∃ data tail, data.length = 36 ∧
    criticalMagic <+: data ∧ s = Opcode.earlyReturn :: 36 :: data ++ tail := by
  simp only [isCriticalCommit, Option.isSome_iff_exists, Prod.exists, criticalParts?_eq_some_iff]
  constructor
  · rintro ⟨hash, tail, rfl, hhash⟩
    exact ⟨criticalMagic ++ hash, tail, by rw [List.length_append, hhash]; rfl,
      List.prefix_append .., rfl⟩
  · rintro ⟨_, tail, hlength, ⟨hash, rfl⟩, rfl⟩
    refine ⟨hash, tail, rfl, ?_⟩
    rw [List.length_append] at hlength
    exact Nat.add_left_cancel hlength

/-- The payload of a commitment stands behind its push, and decodes to whatever it may be. -/
theorem isCriticalCommit_iff_instructions : s.isCriticalCommit = true ↔ ∃ data rest,
    data.length = 36 ∧ criticalMagic <+: data ∧
      s.instructions = .ofOpcode Opcode.earlyReturn :: .direct data :: rest := by
  rw [isCriticalCommit_iff]
  refine exists_congr fun data => ?_
  rw [exists_and_left, exists_and_left, exists_and_left, exists_and_left]
  refine and_congr_right fun hlength => and_congr_right fun _ => ?_
  have hwhole : ∀ ins ∈ [Instruction.ofOpcode Opcode.earlyReturn, .direct data],
      ins.WellFormed := by
    rw [List.forall_mem_cons, List.forall_mem_singleton]
    exact ⟨Instruction.wellFormed_ofOpcode rfl, Instruction.wellFormed_direct (by omega)⟩
  have hbytes : ofInstructions [.ofOpcode Opcode.earlyReturn, .direct data] =
      Opcode.earlyReturn :: 36 :: data := by
    rw [ofInstructions_cons, ofInstructions_singleton, Instruction.encode_direct (by omega),
      hlength]
    rfl
  rw [← hbytes]
  exact (exists_instructions_append_iff hwhole).symm

end Patterns

/-- The patterns that are recognised by their bytes are patterns of instructions. A script hash, a
key hash and a witness program are scripts of three, five and two instructions, in which the hash or
the program is pushed with its length for an opcode; a commitment is a script that starts with two.
None of these instructions is cut. -/
theorem patterns_match_instructions (s : Script) :
    ((s.isScriptHash = true ↔ ∃ hash, hash.length = 20 ∧
        s.instructions = [.ofOpcode Opcode.hash160, .direct hash, .ofOpcode Opcode.equal]) ∧
      ∀ hash, s.scriptHash? = some hash ↔ hash.length = 20 ∧
        s.instructions = [.ofOpcode Opcode.hash160, .direct hash, .ofOpcode Opcode.equal]) ∧
    (s.isKeyHash = true ↔ ∃ hash, hash.length = 20 ∧
      s.instructions = [.ofOpcode Opcode.dup, .ofOpcode Opcode.hash160, .direct hash,
        .ofOpcode Opcode.equalVerify, .ofOpcode Opcode.checkSig]) ∧
    ((s.isWitnessProgram = true ↔ ∃ version program, s.witnessProgram? = some (version, program)) ∧
      ∀ version program, s.witnessProgram? = some (version, program) ↔
        (2 ≤ program.length ∧ program.length ≤ 40) ∧ ∃ first,
          Opcode.smallInt? first = some (version : Int) ∧
            s.instructions = [.ofOpcode first, .direct program]) ∧
    (s.isCriticalCommit = true ↔ ∃ data rest, data.length = 36 ∧ criticalMagic <+: data ∧
      s.instructions = .ofOpcode Opcode.earlyReturn :: .direct data :: rest) := by
  refine ⟨⟨?_, fun _ => scriptHash?_eq_some_iff_instructions⟩, isKeyHash_iff_instructions,
    ⟨?_, fun _ _ => witnessProgram?_eq_some_iff_instructions⟩, isCriticalCommit_iff_instructions⟩
  · simp only [isScriptHash, Option.isSome_iff_exists, scriptHash?_eq_some_iff_instructions]
  · rw [isWitnessProgram, Option.isSome_iff_exists, Prod.exists]

end Script

end CoinScript
