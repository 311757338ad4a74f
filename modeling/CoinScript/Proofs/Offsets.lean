import CoinScript.Proofs.Decoding
import CoinScript.Run

/-! # Where instructions stand

The bytes of an instruction are as many as its size says, whatever its fields hold. So the
instructions of a script stand one after the other: each ends where the sizes up to it add up
to, starts where the one before it ends, and is followed by the rest that it was decoded with.
Together with the decoding of sequences, this is the correspondence between byte strings and
sequences of instructions.
-/
namespace CoinScript

namespace Instruction

variable {ins : Instruction}

theorem length_encode (ins : Instruction) : ins.encode.length = ins.size := by
  unfold encode size
  split
  · rw [List.length_cons, Nat.add_comm]
  · split <;> simp only [List.length_cons, List.length_append, Bytes.length_ofNatLE,
      List.length_nil] <;> omega

theorem read_encode (h : ins.WellFormed) (tail : Bytes) :
    read.run (ins.encode ++ tail) = (.ok ins, tail) := by
  rw [encode_of_whole h.whole]
  exact readBody_eq_ok_iff.mpr ⟨rfl, h, rfl⟩

theorem cutShort_iff : ins.CutShort ↔ ins.cut = true ∧ ins.data.length <
    lengthWidth ins.opcode + statedLength ins.opcode (ins.data.take (lengthWidth ins.opcode)) := by
  constructor
  · intro h
    refine ⟨h.cut, Nat.lt_of_not_le fun hlong => ?_⟩
    generalize hfield : ins.data.take (lengthWidth ins.opcode) = field at hlong
    have hwidth : field.length = lengthWidth ins.opcode := by
      rw [← hfield, List.length_take]
      omega
    -- The announced data is there, so that a whole instruction stands at the front.
    generalize hdata : (ins.data.drop (lengthWidth ins.opcode)).take
      (statedLength ins.opcode field) = data
    have hlength : data.length = statedLength ins.opcode field := by
      rw [← hdata, List.length_take, List.length_drop]
      omega
    obtain ⟨hwhole, hbody⟩ := stated_iff_wellFormed.mp ⟨hwidth, hlength⟩
    refine h.noWhole _ hwhole ?_
    rw [encode_of_whole hwhole.whole, hbody, List.prefix_cons_inj, ← hfield, ← hdata,
      ← List.take_add]
    exact List.take_prefix _ _
  · rintro ⟨hcut, hshort⟩
    refine ⟨hcut, fun whole hwhole hstarts => ?_⟩
    obtain ⟨opcode, data, _⟩ := whole
    cases hwhole.whole
    rw [encode_of_whole hwhole.whole, body_of_wellFormed hwhole, List.cons_prefix_cons] at hstarts
    obtain ⟨hopcode, rest, hrest⟩ := hstarts
    obtain ⟨hwidth, hlength⟩ := stated_iff_wellFormed.mpr ⟨hwhole, body_of_wellFormed hwhole⟩
    rw [← hopcode, ← hrest, List.append_assoc, List.take_left' hwidth, ← hlength] at hshort
    simp only [List.length_append, hwidth] at hshort
    omega

end Instruction

def Located.endOffset (s : Script) (here : Located) : Nat := s.length - here.rest.length

namespace Script

variable {s : Script} {inss : List Instruction} {here : Located} {i : Nat}

theorem length_ofInstructions (inss : List Instruction) :
    (ofInstructions inss).length = (inss.map Instruction.size).sum := by
  induction inss with
  | nil => rfl
  | cons ins inss ih =>
    rw [ofInstructions_cons, List.length_append, ih, Instruction.length_encode, List.map_cons,
      List.sum_cons]

theorem ofInstructions_take (h : s.located[i]? = some here) :
    ofInstructions (s.instructions.take i) ++ (here.instruction.encode ++ here.rest) = s := by
  obtain ⟨hi, hhere⟩ := List.getElem?_eq_some_iff.mp h
  have hsplit : s.located = s.located.take i ++ here :: s.located.drop (i + 1) := by
    rw [← hhere, ← List.drop_eq_getElem_cons hi, List.take_append_drop]
  have hs := (located_split hsplit).2
  rw [List.map_append, ofInstructions_append, List.map_singleton, ofInstructions_cons] at hs
  rw [instructions, ← List.map_take]
  simpa [ofInstructions] using hs.symm

theorem Sequence.wellFormed_of_mem_dropLast (h : Sequence inss) {ins : Instruction}
    (hins : ins ∈ inss.dropLast) : ins.WellFormed := by
  induction h with
  | nil => simp at hins
  | cut => simp at hins
  | @cons first inss hfirst _ ih =>
    cases inss with
    | nil => simp at hins
    | cons second rest =>
      rw [List.dropLast_cons_cons, List.mem_cons] at hins
      rcases hins with rfl | hins
      · exact hfirst
      · exact ih hins

theorem offsets_of_located (h : s.located[i]? = some here) :
    here.endOffset s = ((s.instructions.take (i + 1)).map Instruction.size).sum ∧
    here.instruction.size ≤ here.endOffset s ∧
    Event.offset s here = ((s.instructions.take i).map Instruction.size).sum ∧
    s.drop (Event.offset s here) = here.instruction.encode ++ here.rest := by
  have hs := ofInstructions_take h
  have hnext : s.instructions.take (i + 1) = s.instructions.take i ++ [here.instruction] := by
    rw [List.take_add_one, instructions, List.getElem?_map, h]
    rfl
  have hlength : s.length =
      ((s.instructions.take i).map Instruction.size).sum + here.instruction.size +
        here.rest.length := by
    rw [← congrArg List.length hs, List.length_append, List.length_append, length_ofInstructions,
      Instruction.length_encode, Nat.add_assoc]
  have hstart : Event.offset s here = ((s.instructions.take i).map Instruction.size).sum := by
    unfold Event.offset
    omega
  refine ⟨?_, ?_, hstart, ?_⟩
  · rw [hnext, List.map_append, List.sum_append, List.map_singleton, List.sum_singleton]
    unfold Located.endOffset
    omega
  · unfold Located.endOffset
    omega
  · rw [hstart, ← length_ofInstructions]
    conv => lhs; arg 2; rw [← hs]
    exact List.drop_left

/-- Byte strings and sequences of instructions correspond. Every byte string is decoded, into no
more instructions than it has bytes, of which only the last may be cut short; they write back to
the string, and they stand where their sizes say. Conversely a sequence is what its bytes are
decoded to, a whole instruction is read off the front of whatever starts with its bytes, and the
size of an instruction is the number of its bytes. -/
theorem bytes_correspond_to_sequences :
    (∀ s : Script, s.instructions.length ≤ s.length ∧ Sequence s.instructions ∧
      (∀ ins ∈ s.instructions.dropLast, ins.WellFormed) ∧ ofInstructions s.instructions = s ∧
      ∀ i here, s.located[i]? = some here →
        s.instructions[i]? = some here.instruction ∧
        here.endOffset s = ((s.instructions.take (i + 1)).map Instruction.size).sum ∧
        here.instruction.size ≤ here.endOffset s ∧
        Event.offset s here = ((s.instructions.take i).map Instruction.size).sum ∧
        s.drop (Event.offset s here) = here.instruction.encode ++ here.rest) ∧
    (∀ inss, Sequence inss → (ofInstructions inss).instructions = inss) ∧
    (∀ ins tail, ins.WellFormed → Instruction.read.run (ins.encode ++ tail) = (.ok ins, tail)) ∧
    ∀ ins : Instruction, ins.size = ins.encode.length := by
  refine ⟨?_, fun inss => instructions_ofInstructions,
    fun ins tail hins => Instruction.read_encode hins tail,
    fun ins => (Instruction.length_encode ins).symm⟩
  intro s
  obtain ⟨hsequence, hwritten⟩ := sequence_instructions s
  have hcount := length_le_length_ofInstructions s.instructions
  rw [hwritten] at hcount
  refine ⟨hcount, hsequence, fun ins => hsequence.wellFormed_of_mem_dropLast, hwritten, ?_⟩
  intro i here hhere
  refine ⟨?_, offsets_of_located hhere⟩
  rw [instructions, List.getElem?_map, hhere]
  rfl

/-- A copy, a push of three bytes, and a push whose length field is cut. -/
theorem bytes_correspond_to_sequences_cut :
    let inss : List Instruction := [.ofOpcode Opcode.dup, .ofData [1, 2, 3], ⟨0x4d, [5], true⟩]
    let s : Script := [0x76, 3, 1, 2, 3, 0x4d, 5]
    Sequence inss ∧ ofInstructions inss = s ∧ s.instructions = inss ∧
      s.located[1]? = some ⟨.ofData [1, 2, 3], [0x4d, 5]⟩ ∧
      Event.offset s ⟨.ofData [1, 2, 3], [0x4d, 5]⟩ = 1 ∧
      Instruction.read.run ([3, 1, 2, 3] ++ [0x4d]) = (.ok (.ofData [1, 2, 3]), [0x4d]) := by
  intro inss s
  obtain ⟨hdecoded, hsequence, hread, -⟩ := bytes_correspond_to_sequences
  have hdup : (Instruction.ofOpcode Opcode.dup).WellFormed :=
    ⟨rfl, by decide, by decide, by decide⟩
  have hpush : (Instruction.ofData [1, 2, 3]).WellFormed := ⟨rfl, by decide, by decide, by decide⟩
  have hcut : Instruction.CutShort ⟨0x4d, [5], true⟩ := Instruction.cutShort_iff.mpr (by decide)
  have hinss : Sequence inss := .cons hdup (.cons hpush (.cut hcut))
  have hplace : s.located[1]? = some ⟨.ofData [1, 2, 3], [0x4d, 5]⟩ := by decide +kernel
  have hback : s.instructions = inss := hsequence inss hinss
  refine ⟨hinss, by decide, hback, hplace, ?_, hread _ [0x4d] hpush⟩
  have hstart := ((hdecoded s).2.2.2.2 1 _ hplace).2.2.2.1
  rw [hback] at hstart
  exact hstart

end Script

end CoinScript
