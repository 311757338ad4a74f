import CoinScript.Machine.Signature
import CoinScript.Proofs.Decoding
import CoinScript.Proofs.Outcome
import Mathlib.Data.List.Basic

/-! # Removing signatures from script code

To remove the bytes of a whole instruction wherever they start at an instruction is to drop
that instruction from the sequence: a match can neither start inside another instruction nor
reach into the next one. What is left decodes to the instructions that were kept, so that
several signatures can be removed one after the other, in any order.
-/
namespace CoinScript

theorem Instruction.wellFormed_ofData {data : Bytes} (h : data.length < 2 ^ 32) :
    (ofData data).WellFormed := by
  by_cases hdirect : data.length ≤ 75
  · have hopcode : (ofData data).opcode = UInt8.ofNat data.length := by
      simp [ofData, hdirect]
    have hvalue : (UInt8.ofNat data.length).toNat = data.length := by
      simp only [UInt8.toNat_ofNat']
      omega
    have hsmall : (ofData data).opcode ≤ 75 := by
      rw [hopcode, UInt8.le_iff_toNat_le, hvalue]
      exact hdirect
    refine ⟨rfl, fun _ => ?_, fun hlong => ?_, fun hbare => ?_⟩
    · rw [hopcode, hvalue]
      rfl
    · exact absurd hsmall (UInt8.not_le.mpr hlong)
    · simp [isPush_of_direct hsmall] at hbare
  · have hopcode : (ofData data).opcode = if data.length ≤ 0xff then Opcode.pushData1
        else if data.length ≤ 0xffff then Opcode.pushData2 else Opcode.pushData4 := by
      simp [ofData, hdirect]
    have hlong : ¬(ofData data).opcode ≤ 75 ∧ Opcode.isPush (ofData data).opcode = true ∧
        data.length < 256 ^ lengthWidth (ofData data).opcode := by
      have hwidth1 : lengthWidth Opcode.pushData1 = 1 := by decide
      have hwidth2 : lengthWidth Opcode.pushData2 = 2 := by decide
      have hwidth4 : lengthWidth Opcode.pushData4 = 4 := by decide
      rw [hopcode]
      split
      · exact ⟨by decide, by decide, by rw [hwidth1]; omega⟩
      · split
        · exact ⟨by decide, by decide, by rw [hwidth2]; omega⟩
        · exact ⟨by decide, by decide, by rw [hwidth4]; omega⟩
    refine ⟨rfl, fun h => absurd h hlong.1, fun _ _ => hlong.2.2, fun hbare => ?_⟩
    simp [hlong.2.1] at hbare

namespace Script

variable {op ins : Instruction} {inss : List Instruction} {needle s rest : Script}

theorem removeAll_match (hn : needle ≠ []) (rest : Script) :
    removeAll needle (needle ++ rest) =
      ((removeAll needle rest).1 + 1, (removeAll needle rest).2) := by
  have hafter : Bytes.after? needle (needle ++ rest) = some rest :=
    Bytes.after?_eq_some_iff.mpr rfl
  rw [removeAll]
  simp only [hn, ↓reduceDIte]
  split
  · next found h =>
    cases hafter.symm.trans h
    rfl
  · next h => simp [hafter] at h

theorem removeAll_whole (hn : needle ≠ []) (hins : ins.WellFormed)
    (hmiss : Bytes.after? needle (ins.encode ++ rest) = none) :
    removeAll needle (ins.encode ++ rest) =
      ((removeAll needle rest).1, ins.encode ++ (removeAll needle rest).2) := by
  rw [Instruction.encode_of_whole hins.whole, List.cons_append] at hmiss ⊢
  rw [removeAll]
  simp only [hn, ↓reduceDIte]
  split
  · next h => simp [hmiss] at h
  · simp only [Instruction.decode_of_wellFormed hins, hins.whole, Bool.false_eq_true, ↓reduceIte]
    rw [Instruction.encode_of_whole hins.whole]

theorem removeAll_cutShort (hn : needle ≠ []) (hins : ins.CutShort)
    (hmiss : Bytes.after? needle ins.encode = none) :
    removeAll needle ins.encode = (0, ins.encode) := by
  rw [Instruction.encode_of_cut hins.cut] at hmiss ⊢
  rw [removeAll]
  simp only [hn, ↓reduceDIte]
  split
  · next h => simp [hmiss] at h
  · simp only [Instruction.decode_of_cutShort hins, hins.cut, ↓reduceIte]

theorem after?_of_ne (hop : op.WellFormed) (hins : ins.WellFormed) (hne : ins ≠ op)
    (rest : Script) : Bytes.after? op.encode (ins.encode ++ rest) = none := by
  rw [Option.eq_none_iff_forall_ne_some]
  intro tail htail
  have hbytes := Bytes.after?_eq_some_iff.mp htail
  have hdecoded := located_of_wellFormed hins rest
  rw [hbytes, located_of_wellFormed hop] at hdecoded
  cases hdecoded
  exact hne rfl

theorem after?_of_cutShort (hop : op.WellFormed) (hins : ins.CutShort) :
    Bytes.after? op.encode ins.encode = none := by
  rw [Option.eq_none_iff_forall_ne_some]
  intro tail htail
  have hbytes := Bytes.after?_eq_some_iff.mp htail
  rw [Instruction.encode_of_cut hins.cut] at hbytes
  exact hins.noWhole op hop ⟨tail, hbytes.symm⟩

/-- Removing a whole instruction from a script drops it from the sequence of instructions. -/
theorem removeAll_ofInstructions (hop : op.WellFormed) (h : Sequence inss) :
    removeAll op.encode (ofInstructions inss) =
      (inss.count op, ofInstructions (inss.filter (· ≠ op))) := by
  have hn := op.encode_ne_nil
  induction h with
  | nil =>
    have hmiss : Bytes.after? op.encode [] = none := by
      rw [Option.eq_none_iff_forall_ne_some]
      intro tail htail
      have hbytes := Bytes.after?_eq_some_iff.mp htail
      simp [hn] at hbytes
    rw [show ofInstructions [] = [] from rfl, removeAll]
    simp only [hn, ↓reduceDIte]
    split
    · next h => simp [hmiss] at h
    · rfl
  | @cut ins hcut =>
    have hne : ins ≠ op := by
      rintro rfl
      cases hcut.cut.symm.trans hop.whole
    have hsingle : ofInstructions [ins] = ins.encode := List.append_nil _
    rw [hsingle, removeAll_cutShort hn hcut (after?_of_cutShort hop hcut)]
    simp [hne, hsingle]
  | @cons ins inss hins _ ih =>
    rw [ofInstructions_cons]
    by_cases heq : ins = op
    · subst heq
      rw [removeAll_match hn, ih]
      simp
    · rw [removeAll_whole hn hins (after?_of_ne hop hins heq _), ih]
      simp [heq, ofInstructions_cons]

theorem removeAll_eq_self (h : (removeAll needle s).1 = 0) : (removeAll needle s).2 = s := by
  fun_induction removeAll needle s with
  | case1 => rfl
  | case2 => simp at h
  | case3 => rfl
  | case4 => rfl
  | case5 _ opcode tail _ step _ found kept hkept ih =>
    rw [hkept] at ih
    have hsame : kept = step.2 := ih h
    rw [hsame]
    exact Instruction.encode_append_decode opcode tail

theorem length_removeAll (needle s : Script) :
    s.length = (removeAll needle s).2.length + (removeAll needle s).1 * needle.length := by
  fun_induction removeAll needle s with
  | case1 => simp
  | case2 s hn rest hmatch found kept hkept ih =>
    rw [hkept] at ih
    dsimp only at ih ⊢
    rw [Bytes.after?_eq_some_iff.mp hmatch, List.length_append, ih, Nat.succ_mul]
    omega
  | case3 => simp
  | case4 => simp
  | case5 _ opcode tail _ step _ found kept hkept ih =>
    rw [hkept] at ih
    rw [← Instruction.encode_append_decode opcode tail, List.length_append, List.length_append,
      ih, Nat.add_assoc]

theorem removeAll_encode (hop : op.WellFormed) (s : Script) : removeAll op.encode s =
    (s.instructions.count op, ofInstructions (s.instructions.filter (· ≠ op))) := by
  obtain ⟨hsequence, hwritten⟩ := sequence_instructions s
  have hremove := removeAll_ofInstructions hop hsequence
  rwa [hwritten] at hremove

theorem instructions_removeAll (hop : op.WellFormed) (s : Script) :
    (removeAll op.encode s).2.instructions = s.instructions.filter (· ≠ op) := by
  rw [removeAll_encode hop]
  exact instructions_ofInstructions ((sequence_instructions s).1.filter _)

/-- Removing the bytes of a whole instruction is a filter on the instructions. It counts the
instruction, keeps all others in order, a cut one at the end included, leaves nothing to remove
a second time, and does not depend on what else is removed before or after. For any bytes that
are removed, the lengths add up, and a script without a match stays as it is. -/
theorem removal_filters_instructions :
    (∀ (s : Script) (op : Instruction), op.WellFormed →
      (removeAll op.encode s).1 = s.instructions.count op ∧
      (removeAll op.encode s).2.instructions = s.instructions.filter (· ≠ op) ∧
      (∀ ins ∈ s.instructions, ins.cut = true → ins ∈ (removeAll op.encode s).2.instructions) ∧
      removeAll op.encode (removeAll op.encode s).2 = (0, (removeAll op.encode s).2) ∧
      ∀ other : Instruction, other.WellFormed → other ≠ op →
        (removeAll other.encode (removeAll op.encode s).2).1 = (removeAll other.encode s).1 ∧
        (removeAll other.encode (removeAll op.encode s).2).2 =
          (removeAll op.encode (removeAll other.encode s).2).2) ∧
    (∀ sig : Bytes, sig.length < 2 ^ 32 → (Instruction.ofData sig).WellFormed) ∧
    ∀ needle s : Script,
      s.length = (removeAll needle s).2.length + (removeAll needle s).1 * needle.length ∧
      ((removeAll needle s).1 = 0 → (removeAll needle s).2 = s) := by
  refine ⟨?_, fun sig => Instruction.wellFormed_ofData, fun needle s =>
    ⟨length_removeAll needle s, removeAll_eq_self⟩⟩
  intro s op hop
  have hkept := instructions_removeAll hop s
  refine ⟨by rw [removeAll_encode hop], hkept, ?_, ?_, ?_⟩
  · intro ins hins hcut
    have hne : ins ≠ op := by
      rintro rfl
      cases hcut.symm.trans hop.whole
    rw [hkept]
    exact List.mem_filter.mpr ⟨hins, decide_eq_true hne⟩
  · have hnone : (removeAll op.encode (removeAll op.encode s).2).1 = 0 := by
      rw [removeAll_encode hop (removeAll op.encode s).2, hkept]
      simp [List.count_eq_zero]
    exact Prod.ext hnone (removeAll_eq_self hnone)
  · intro other hother hne
    constructor
    · rw [removeAll_encode hother, removeAll_encode hother s, hkept]
      exact List.count_filter (decide_eq_true hne)
    · rw [removeAll_encode hother (removeAll op.encode s).2, hkept,
        removeAll_encode hop (removeAll other.encode s).2, instructions_removeAll hother,
        List.filter_comm]

/-- A signature pushed twice, once within another push, before a push that is cut. -/
theorem removal_filters_instructions_pushedTwice :
    let op := Instruction.ofData [0xaa]
    let s : Script := [1, 0xaa, 1, 0xaa, 0x51, 2, 1, 0xaa, 0x4c, 1]
    op.WellFormed ∧ removeAll op.encode s = (2, [0x51, 2, 1, 0xaa, 0x4c, 1]) ∧
      removeAll op.encode [0x51, 2, 1, 0xaa, 0x4c, 1] = (0, [0x51, 2, 1, 0xaa, 0x4c, 1]) := by
  intro op s
  obtain ⟨hfilter, hpush, -⟩ := removal_filters_instructions
  have hop : op.WellFormed := hpush [0xaa] (by decide)
  have hremove : removeAll op.encode s = (2, [0x51, 2, 1, 0xaa, 0x4c, 1]) := by decide +kernel
  have hagain := (hfilter s op hop).2.2.2.1
  rw [hremove] at hagain
  exact ⟨hop, hremove, hagain⟩

end Script

namespace Env

variable {env : Env} {inss : List Instruction} {code : Script} {sigs : List Bytes}

theorem removeSignature_of_witness (h : env.version ≠ .base) (code : Script) (sig : Bytes) :
    env.removeSignature code sig = .ok code := by
  simp [removeSignature, h]

theorem removeSignatures_cons (code : Script) (sig : Bytes) (sigs : List Bytes) :
    env.removeSignatures code (sig :: sigs) =
      env.removeSignature code sig >>= fun next => env.removeSignatures next sigs :=
  List.foldlM_cons

end Env

end CoinScript
