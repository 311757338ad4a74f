import CoinScript.Bytes.Lemmas
import CoinScript.Script

/-! # Scripts as sequences of instructions

A whole instruction can be read off the front of any script that starts with its bytes, and
no script starts with the bytes of two of them. So byte strings correspond to sequences of
whole instructions, of which the last may be cut short instead: decoding a script and writing
its instructions back are inverse to each other.
-/
namespace CoinScript

section Readers

variable {ε ε' α β : Type} {r : Reader ε α} {input rest : Bytes}

theorem Reader.bind_eq_ok_iff {next : α → Reader ε β} {b : β} :
    (r >>= next) input = (.ok b, rest) ↔
      ∃ a mid, r input = (.ok a, mid) ∧ next a mid = (.ok b, rest) := by
  have hbind : (r >>= next) input = Reader.andThen r next input := rfl
  rw [hbind]
  unfold Reader.andThen
  rcases r input with ⟨_ | a, mid⟩
  · simp
  · constructor
    · intro h
      exact ⟨a, mid, rfl, h⟩
    · rintro ⟨_, _, hr, h⟩
      cases hr
      exact h

theorem Reader.mapError_eq_ok_iff {f : ε → ε'} {a : α} :
    r.mapError f input = (.ok a, rest) ↔ r input = (.ok a, rest) := by
  unfold Reader.mapError
  rcases r input with ⟨_ | a, mid⟩ <;> simp

theorem Wire.take_eq_ok_iff {n : Nat} {front : Bytes} :
    Wire.take n input = (.ok front, rest) ↔ input = front ++ rest ∧ front.length = n := by
  constructor
  · intro h
    unfold Wire.take at h
    split at h
    · next hsplit =>
      cases h
      exact Bytes.split?_eq_some hsplit
    · cases h
  · rintro ⟨rfl, rfl⟩
    exact Wire.take_append front rest

theorem Wire.uint_eq_ok_iff {width n : Nat} : Wire.uint width input = (.ok n, rest) ↔
    ∃ field, input = field ++ rest ∧ field.length = width ∧ n = Bytes.toNatLE field := by
  have huint : Wire.uint width = Wire.take width >>= fun bytes => pure (Bytes.toNatLE bytes) := rfl
  rw [huint, Reader.bind_eq_ok_iff]
  constructor
  · rintro ⟨field, _, htake, hvalue⟩
    cases hvalue
    obtain ⟨hinput, hlength⟩ := take_eq_ok_iff.mp htake
    exact ⟨field, hinput, hlength, rfl⟩
  · rintro ⟨field, hinput, hlength, rfl⟩
    exact ⟨field, rest, take_eq_ok_iff.mpr ⟨hinput, hlength⟩, rfl⟩

end Readers

namespace Instruction

/-- The data has the length that the opcode, or the length after it, can express. -/
structure WellFormed (ins : Instruction) : Prop where
  whole : ins.cut = false
  direct : ins.opcode ≤ 75 → ins.data.length = ins.opcode.toNat
  sized : 75 < ins.opcode → Opcode.isPush ins.opcode = true →
    ins.data.length < 256 ^ lengthWidth ins.opcode
  bare : Opcode.isPush ins.opcode = false → ins.data = []

/-- A push that no whole instruction can be read from. -/
structure CutShort (ins : Instruction) : Prop where
  cut : ins.cut = true
  noWhole : ∀ whole, WellFormed whole → ¬whole.encode <+: ins.opcode :: ins.data

section Bytes

variable {ins : Instruction} {opcode : UInt8}

def body (ins : Instruction) : Bytes :=
  Bytes.ofNatLE (lengthWidth ins.opcode) ins.data.length ++
    if Opcode.isPush ins.opcode then ins.data else []

theorem encode_of_whole (h : ins.cut = false) : ins.encode = ins.opcode :: ins.body := by
  simp [encode, body, h]

theorem encode_of_cut (h : ins.cut = true) : ins.encode = ins.opcode :: ins.data := by
  simp [encode, h]

theorem encode_ne_nil (ins : Instruction) : ins.encode ≠ [] := by
  cases h : ins.cut with
  | true => simp [encode_of_cut h]
  | false => simp [encode_of_whole h]

theorem isPush_of_direct (h : opcode ≤ 75) : Opcode.isPush opcode = true := by
  have hbound : (75 : UInt8) ≤ Opcode.pushData4 := by decide
  simpa [Opcode.isPush] using UInt8.le_trans h hbound

theorem lengthWidth_of_direct (h : opcode ≤ 75) : lengthWidth opcode = 0 := by
  have h1 : ¬Opcode.pushData1 ≤ 75 := by decide
  have h2 : ¬Opcode.pushData2 ≤ 75 := by decide
  have h4 : ¬Opcode.pushData4 ≤ 75 := by decide
  grind [lengthWidth]

theorem lengthWidth_of_bare (h : Opcode.isPush opcode = false) : lengthWidth opcode = 0 := by
  have h1 : Opcode.isPush Opcode.pushData1 = true := by decide
  have h2 : Opcode.isPush Opcode.pushData2 = true := by decide
  have h4 : Opcode.isPush Opcode.pushData4 = true := by decide
  grind [lengthWidth]

end Bytes

section Reading

variable {ins : Instruction} {opcode : UInt8} {input rest : Bytes}

/-- The length of the data as the script has it: in the opcode itself, or in a field after it. -/
def statedLength (opcode : UInt8) (field : Bytes) : Nat :=
  if opcode ≤ 75 then opcode.toNat else Bytes.toNatLE field

theorem readLength_eq_ok_iff {n : Nat} : readLength opcode input = (.ok n, rest) ↔
    ∃ field, input = field ++ rest ∧ field.length = lengthWidth opcode ∧
      n = statedLength opcode field := by
  have hempty {width value : Nat} (hwidth : width = 0) :
      (Reader.ok value : Reader ParseFault Nat) input = (.ok n, rest) ↔
        ∃ field, input = field ++ rest ∧ field.length = width ∧ n = value := by
    simp only [hwidth, List.length_eq_zero_iff]
    constructor
    · intro h
      cases h
      exact ⟨[], rfl, rfl, rfl⟩
    · rintro ⟨_, rfl, rfl, rfl⟩
      rfl
  unfold readLength
  by_cases hdirect : opcode ≤ 75
  · simp only [hdirect, ↓reduceIte, statedLength]
    exact hempty (lengthWidth_of_direct hdirect)
  · simp only [hdirect, ↓reduceIte, statedLength]
    cases hpush : Opcode.isPush opcode with
    | true =>
      simp only [↓reduceIte, Reader.mapError_eq_ok_iff]
      exact Wire.uint_eq_ok_iff
    | false =>
      have hwidth := lengthWidth_of_bare hpush
      simp only [Bool.false_eq_true, ↓reduceIte, hempty hwidth]
      refine exists_congr fun field => and_congr_right fun _ => and_congr_right fun hlength => ?_
      rw [List.length_eq_zero_iff.mp (hlength.trans hwidth), Bytes.toNatLE]

/-- A field of the right width states the length of the data exactly if the two are the body of
a whole instruction. -/
theorem stated_iff_wellFormed {field data : Bytes} :
    field.length = lengthWidth opcode ∧ data.length = statedLength opcode field ↔
      WellFormed { opcode, data } ∧ body { opcode, data } = field ++ data := by
  by_cases hdirect : opcode ≤ 75
  · have hwidth := lengthWidth_of_direct hdirect
    have hpush := isPush_of_direct hdirect
    simp only [statedLength, hdirect, ↓reduceIte, hwidth, body, Bytes.ofNatLE, hpush,
      List.nil_append, List.self_eq_append_left, List.length_eq_zero_iff]
    constructor
    · rintro ⟨rfl, hlength⟩
      refine ⟨⟨rfl, fun _ => hlength, fun hlong => ?_, fun hbare => ?_⟩, rfl⟩
      · exact absurd hdirect (UInt8.not_le.mpr hlong)
      · simp [hpush] at hbare
    · rintro ⟨hins, rfl⟩
      exact ⟨rfl, hins.direct hdirect⟩
  · cases hpush : Opcode.isPush opcode with
    | true =>
      simp only [statedLength, hdirect, ↓reduceIte, body, hpush, List.append_cancel_right_eq]
      constructor
      · rintro ⟨hwidth, hlength⟩
        rw [hlength, ← hwidth, Bytes.ofNatLE_toNatLE]
        refine ⟨⟨rfl, fun h => absurd h hdirect, fun _ _ => ?_, fun hbare => ?_⟩, rfl⟩
        · show data.length < 256 ^ lengthWidth opcode
          rw [hlength, ← hwidth]
          exact Bytes.toNatLE_lt field
        · simp [hpush] at hbare
      · rintro ⟨hins, rfl⟩
        refine ⟨Bytes.length_ofNatLE _ _, ?_⟩
        rw [Bytes.toNatLE_ofNatLE]
        exact (Nat.mod_eq_of_lt (hins.sized (UInt8.not_le.mp hdirect) hpush)).symm
    | false =>
      have hwidth := lengthWidth_of_bare hpush
      simp only [statedLength, hdirect, ↓reduceIte, hwidth, body, hpush, Bytes.ofNatLE,
        Bool.false_eq_true, List.append_nil, List.length_eq_zero_iff]
      constructor
      · rintro ⟨rfl, hlength⟩
        have hdata : data = [] := List.length_eq_zero_iff.mp hlength
        refine ⟨⟨rfl, fun h => absurd h hdirect, fun _ h => ?_, fun _ => hdata⟩, ?_⟩
        · simp [hpush] at h
        · simp [hdata]
      · rintro ⟨hins, hbody⟩
        have hdata : data = [] := hins.bare hpush
        rw [hdata, List.append_nil] at hbody
        rw [← hbody, hdata]
        exact ⟨rfl, rfl⟩

theorem body_of_wellFormed (h : ins.WellFormed) :
    ins.body = Bytes.ofNatLE (lengthWidth ins.opcode) ins.data.length ++ ins.data := by
  unfold body
  cases hpush : Opcode.isPush ins.opcode with
  | true => rfl
  | false => simp [h.bare hpush]

theorem readBody_eq_ok_iff : readBody opcode input = (.ok ins, rest) ↔
    ins.opcode = opcode ∧ ins.WellFormed ∧ input = ins.body ++ rest := by
  have hread : readBody opcode = readLength opcode >>= fun length =>
      (Wire.take length).mapError (fun _ => .tooShort) >>= fun data => pure { opcode, data } := rfl
  rw [hread]
  simp only [Reader.bind_eq_ok_iff, Reader.mapError_eq_ok_iff, readLength_eq_ok_iff,
    Wire.take_eq_ok_iff]
  constructor
  · rintro ⟨n, _, ⟨field, rfl, hwidth, hn⟩, data, _, ⟨rfl, rfl⟩, hins⟩
    cases hins
    obtain ⟨hwell, hbody⟩ := stated_iff_wellFormed.mp ⟨hwidth, hn⟩
    exact ⟨rfl, hwell, by rw [hbody, List.append_assoc]⟩
  · rintro ⟨rfl, hwell, rfl⟩
    obtain ⟨opcode, data, cut⟩ := ins
    cases hwell.whole
    have hbody := body_of_wellFormed hwell
    obtain ⟨hwidth, hlength⟩ := stated_iff_wellFormed.mpr ⟨hwell, hbody⟩
    refine ⟨data.length, data ++ rest, ⟨_, ?_, hwidth, hlength⟩, data, rest, ⟨rfl, rfl⟩, rfl⟩
    rw [hbody, List.append_assoc]

end Reading

section Decoding

variable {ins : Instruction} {opcode : UInt8} {input rest : Bytes}

theorem decode_of_wellFormed (h : ins.WellFormed) (rest : Bytes) :
    decode ins.opcode (ins.body ++ rest) = (ins, rest) := by
  have hread : read.run (ins.opcode :: (ins.body ++ rest)) = (.ok ins, rest) :=
    readBody_eq_ok_iff.mpr ⟨rfl, h, rfl⟩
  simp [decode, hread]

theorem decode_of_cutShort (h : ins.CutShort) : decode ins.opcode ins.data = (ins, []) := by
  unfold decode
  split
  · next whole rest hread =>
    obtain ⟨hopcode, hwhole, hbytes⟩ := readBody_eq_ok_iff.mp hread
    refine absurd ⟨rest, ?_⟩ (h.noWhole whole hwhole)
    rw [encode_of_whole hwhole.whole, hopcode, hbytes]
    rfl
  · obtain ⟨opcode, data, cut⟩ := ins
    cases h.cut
    rfl

theorem decode_cases (opcode : UInt8) (input : Bytes) :
    (∃ ins rest, decode opcode input = (ins, rest) ∧ ins.WellFormed ∧
      opcode :: input = ins.encode ++ rest) ∨
    ∃ ins, decode opcode input = (ins, []) ∧ ins.CutShort ∧ opcode :: input = ins.encode := by
  cases hread : readBody opcode input with
  | mk outcome rest =>
    have hrun : read.run (opcode :: input) = (outcome, rest) := hread
    cases outcome with
    | ok ins =>
      obtain ⟨rfl, hins, rfl⟩ := readBody_eq_ok_iff.mp hread
      refine .inl ⟨ins, rest, decode_of_wellFormed hins rest, hins, ?_⟩
      rw [encode_of_whole hins.whole]
      rfl
    | error fault =>
      refine .inr ⟨{ opcode, data := input, cut := true }, by simp [decode, hrun], ⟨rfl, ?_⟩, rfl⟩
      rintro whole hwhole ⟨tail, htail⟩
      rw [encode_of_whole hwhole.whole, List.cons_append, List.cons.injEq] at htail
      have hfound := readBody_eq_ok_iff.mpr ⟨htail.1, hwhole, htail.2.symm⟩
      cases hread.symm.trans hfound

/-- Nothing is lost in decoding, whether the instruction is whole or cut. -/
theorem encode_append_decode (opcode : UInt8) (input : Bytes) :
    (decode opcode input).1.encode ++ (decode opcode input).2 = opcode :: input := by
  rcases decode_cases opcode input with
    ⟨ins, rest, hdecode, -, hbytes⟩ | ⟨ins, hdecode, -, hbytes⟩
  · rw [hdecode, hbytes]
  · rw [hdecode, hbytes, List.append_nil]

end Decoding

end Instruction

namespace Script

/-- Whole instructions, of which the last may be cut short instead. -/
inductive Sequence : List Instruction → Prop
  | nil : Sequence []
  | cut {ins} : ins.CutShort → Sequence [ins]
  | cons {ins inss} : ins.WellFormed → Sequence inss → Sequence (ins :: inss)

variable {ins : Instruction} {inss : List Instruction} {s : Script}

theorem located_of_wellFormed (h : ins.WellFormed) (rest : Script) :
    located (ins.encode ++ rest) = ⟨ins, rest⟩ :: located rest := by
  rw [Instruction.encode_of_whole h.whole, List.cons_append, located]
  simp only [Instruction.decode_of_wellFormed h]

theorem located_of_cutShort (h : ins.CutShort) : located ins.encode = [⟨ins, []⟩] := by
  rw [Instruction.encode_of_cut h.cut, located]
  simp only [Instruction.decode_of_cutShort h, located]

theorem ofInstructions_cons (ins : Instruction) (inss : List Instruction) :
    ofInstructions (ins :: inss) = ins.encode ++ ofInstructions inss := rfl

theorem ofInstructions_append (xs ys : List Instruction) :
    ofInstructions (xs ++ ys) = ofInstructions xs ++ ofInstructions ys := List.flatMap_append

theorem length_le_length_ofInstructions (inss : List Instruction) :
    inss.length ≤ (ofInstructions inss).length := by
  induction inss with
  | nil => simp
  | cons ins inss ih =>
    have hencode : 0 < ins.encode.length := List.length_pos_iff.mpr ins.encode_ne_nil
    rw [ofInstructions_cons, List.length_cons, List.length_append]
    omega

theorem instructions_ofInstructions (h : Sequence inss) :
    (ofInstructions inss).instructions = inss := by
  unfold instructions
  induction h with
  | nil => simp [ofInstructions, located]
  | cut hcut => simp [ofInstructions, located_of_cutShort hcut]
  | cons hins _ ih => simp [ofInstructions_cons, located_of_wellFormed hins, ih]

theorem sequence_instructions (s : Script) :
    Sequence s.instructions ∧ ofInstructions s.instructions = s := by
  unfold instructions
  induction s using located.induct with
  | case1 => exact ⟨by simpa [located] using .nil, by simp [located, ofInstructions]⟩
  | case2 opcode input step ih =>
    rcases Instruction.decode_cases opcode input with
      ⟨ins, rest, hdecode, hins, hbytes⟩ | ⟨ins, hdecode, hins, hbytes⟩
    · have hrest : step.2 = rest := congrArg Prod.snd hdecode
      rw [hrest] at ih
      rw [hbytes, located_of_wellFormed hins, List.map_cons]
      exact ⟨.cons hins ih.1, by rw [ofInstructions_cons, ih.2]⟩
    · rw [hbytes, located_of_cutShort hins]
      exact ⟨.cut hins, by simp [ofInstructions]⟩

theorem Sequence.filter (h : Sequence inss) (keep : Instruction → Bool) :
    Sequence (inss.filter keep) := by
  induction h with
  | nil => exact .nil
  | cut hcut =>
    rw [List.filter_cons]
    split
    · exact .cut hcut
    · exact .nil
  | cons hins _ ih =>
    rw [List.filter_cons]
    split
    · exact .cons hins ih
    · exact ih

theorem Sequence.of_append {front : List Instruction} (h : Sequence (front ++ inss)) :
    Sequence inss := by
  induction front with
  | nil => exact h
  | cons first front ih =>
    rw [List.cons_append] at h
    generalize hrest : front ++ inss = rest at h
    cases h with
    | cut =>
      obtain ⟨-, rfl⟩ := List.append_eq_nil_iff.mp hrest
      exact .nil
    | cons _ h => exact ih (hrest ▸ h)

section Places

variable {front back : List Located} {here : Located}

theorem located_cons (h : s.located = here :: back) :
    back = here.rest.located ∧ s = here.instruction.encode ++ here.rest := by
  cases s with
  | nil => simp [located] at h
  | cons opcode input =>
    rcases Instruction.decode_cases opcode input with
      ⟨ins, rest, -, hins, hbytes⟩ | ⟨ins, -, hins, hbytes⟩
    · rw [hbytes, located_of_wellFormed hins] at h
      cases h
      exact ⟨rfl, hbytes⟩
    · rw [hbytes, located_of_cutShort hins] at h
      cases h
      exact ⟨by simp [located], by simpa using hbytes⟩

theorem located_split (h : s.located = front ++ here :: back) : back = here.rest.located ∧
    s = ofInstructions ((front ++ [here]).map (·.instruction)) ++ here.rest := by
  induction front generalizing s with
  | nil =>
    obtain ⟨hback, hs⟩ := located_cons h
    exact ⟨hback, by simpa [ofInstructions] using hs⟩
  | cons first front ih =>
    obtain ⟨htail, hs⟩ := located_cons h
    obtain ⟨hback, hrest⟩ := ih htail.symm
    refine ⟨hback, ?_⟩
    rw [hs, List.cons_append, List.map_cons, ofInstructions_cons, List.append_assoc, ← hrest]

end Places

end Script

end CoinScript
