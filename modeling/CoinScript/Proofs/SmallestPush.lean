import CoinScript.Proofs.PushOnly
import CoinScript.Proofs.ShortestNumber

/-! # The smallest push

The same data can be pushed in several ways: with a length in the opcode or in a field of one, two
or four bytes, and a few strings of one byte also by an opcode of their own. The instruction that is
built for the data is the smallest of these, and it is the only one that passes for minimal where
pushes are checked. What is built for a number is the push of its shortest form.
-/
namespace CoinScript.Instruction

/-- A whole instruction that stands for the data: a push of it, the opcode for minus one, or that
of a small integer. -/
inductive Denotes : Instruction → Bytes → Prop
  | push {ins : Instruction} : ins.WellFormed → ins.isPush = true → Denotes ins ins.data
  | minusOne : Denotes (ofOpcode Opcode.negate1) [0x81]
  | small {n : UInt8} : 1 ≤ n → n ≤ 16 → Denotes (ofOpcode (Opcode.one + n - 1)) [n]

variable {ins : Instruction} {data : Bytes}

section Forms

/-- A whole push has one of four forms, each with room for as much data as its length can say. -/
theorem WellFormed.push_cases (h : ins.WellFormed) (hpush : ins.isPush = true) :
    ins.opcode ≤ 75 ∧ ins.data.length = ins.opcode.toNat ∨
    ins.opcode = Opcode.pushData1 ∧ ins.data.length ≤ 0xff ∨
    ins.opcode = Opcode.pushData2 ∧ ins.data.length ≤ 0xffff ∨
    ins.opcode = Opcode.pushData4 := by
  have hsized : ∀ opcode, Opcode.isPush opcode = true → ¬opcode ≤ 75 →
      opcode = Opcode.pushData1 ∨ opcode = Opcode.pushData2 ∨ opcode = Opcode.pushData4 :=
    Opcode.forall_byte (by decide +kernel)
  by_cases hdirect : ins.opcode ≤ 75
  · exact .inl ⟨hdirect, h.direct hdirect⟩
  · have hlength := h.sized (UInt8.not_le.mp hdirect) hpush
    rcases hsized ins.opcode hpush hdirect with hopcode | hopcode | hopcode
    · rw [hopcode] at hlength
      exact .inr (.inl ⟨hopcode, Nat.le_of_lt_succ hlength⟩)
    · rw [hopcode] at hlength
      exact .inr (.inr (.inl ⟨hopcode, Nat.le_of_lt_succ hlength⟩))
    · exact .inr (.inr (.inr hopcode))

theorem size_of_push (hwhole : ins.cut = false) (hpush : ins.isPush = true) :
    ins.size = 1 + lengthWidth ins.opcode + ins.data.length := by
  have hopcode : Opcode.isPush ins.opcode = true := hpush
  simp [size, hwhole, hopcode]

theorem lengthWidth_ofData (data : Bytes) : lengthWidth (ofData data).opcode =
    if data.length ≤ 75 then 0 else if data.length ≤ 0xff then 1
    else if data.length ≤ 0xffff then 2 else 4 := by
  by_cases hdirect : data.length ≤ 75
  · have hsmall : UInt8.ofNat data.length ≤ 75 := by
      rw [UInt8.le_iff_toNat_le, UInt8.toNat_ofNat']
      exact Nat.le_trans (Nat.mod_le _ _) hdirect
    rw [ofData_of_direct hdirect, if_pos hdirect, lengthWidth_of_direct hsmall]
  · simp only [ofData, hdirect, ↓reduceIte]
    split
    · rfl
    · split <;> rfl

theorem WellFormed.lengthWidth_ofData_le (h : ins.WellFormed) (hpush : ins.isPush = true) :
    lengthWidth (ofData ins.data).opcode ≤ lengthWidth ins.opcode := by
  rw [lengthWidth_ofData]
  obtain ⟨hone, htwo, hfour⟩ : lengthWidth Opcode.pushData1 = 1 ∧
      lengthWidth Opcode.pushData2 = 2 ∧ lengthWidth Opcode.pushData4 = 4 := ⟨rfl, rfl, rfl⟩
  rcases h.push_cases hpush with ⟨hdirect, hstated⟩ | ⟨hopcode, hroom⟩ | ⟨hopcode, hroom⟩ | hopcode
  · have hbound : ins.opcode.toNat ≤ 75 := hdirect
    rw [if_pos (by omega)]
    exact Nat.zero_le _
  · rw [hopcode, hone]
    split_ifs <;> omega
  · rw [hopcode, htwo]
    split_ifs <;> omega
  · rw [hopcode, hfour]
    split_ifs <;> omega

end Forms

section Smallest

theorem isPush_small {n : UInt8} (hone : 1 ≤ n) (hsixteen : n ≤ 16) :
    Opcode.isPush (Opcode.one + n - 1) = false := by
  have hall : ∀ n : UInt8, 1 ≤ n → n ≤ 16 → Opcode.isPush (Opcode.one + n - 1) = false :=
    Opcode.forall_byte (by decide +kernel)
  exact hall n hone hsixteen

theorem WellFormed.eq_ofOpcode (h : ins.WellFormed) (hbare : ins.isPush = false) :
    ins = ofOpcode ins.opcode := by
  obtain ⟨opcode, data, cut⟩ := ins
  obtain rfl : cut = false := h.whole
  obtain rfl : data = [] := h.bare hbare
  rfl

theorem denotes_iff : Denotes ins data ↔ ins.WellFormed ∧ ins.isConstant = true ∧
    ins.opcode ≠ Opcode.reserved ∧ ins.denoted = data := by
  constructor
  · intro h
    cases h with
    | push hform hpush =>
      have hopcode : ∀ opcode, Opcode.isPush opcode = true →
          opcode ≤ Opcode.sixteen ∧ opcode ≠ Opcode.reserved :=
        Opcode.forall_byte (by decide +kernel)
      obtain ⟨hconstant, hreserved⟩ := hopcode ins.opcode hpush
      exact ⟨hform, isConstant_iff.mpr ⟨hform.whole, hconstant⟩, hreserved, denoted_of_push hpush⟩
    | minusOne => exact ⟨wellFormed_ofOpcode rfl, rfl, by decide, rfl⟩
    | @small n hone hsixteen =>
      have hsmall : ∀ n : UInt8, 1 ≤ n → n ≤ 16 →
          (ofOpcode (Opcode.one + n - 1)).isConstant = true ∧
            Opcode.one + n - 1 ≠ Opcode.reserved ∧
            (ofOpcode (Opcode.one + n - 1)).denoted = [n] :=
        Opcode.forall_byte (by decide +kernel)
      exact ⟨wellFormed_ofOpcode (isPush_small hone hsixteen), hsmall n hone hsixteen⟩
  · rintro ⟨hform, hconstant, hreserved, rfl⟩
    cases hpush : ins.isPush with
    | true =>
      rw [denoted_of_push hpush]
      exact .push hform hpush
    | false =>
      rw [hform.eq_ofOpcode hpush]
      have hsmall : ∀ opcode, Opcode.isPush opcode = false → opcode ≤ Opcode.sixteen →
          opcode ≠ Opcode.reserved → opcode ≠ Opcode.negate1 →
          1 ≤ opcode - Opcode.one + 1 ∧ opcode - Opcode.one + 1 ≤ 16 ∧
            Opcode.one + (opcode - Opcode.one + 1) - 1 = opcode ∧
            (ofOpcode opcode).denoted = [opcode - Opcode.one + 1] :=
        Opcode.forall_byte (by decide +kernel)
      by_cases hnegate : ins.opcode = Opcode.negate1
      · rw [hnegate]
        exact .minusOne
      · obtain ⟨hone, hsixteen, hopcode, hdenoted⟩ :=
          hsmall ins.opcode hpush (isConstant_iff.mp hconstant).2 hreserved hnegate
        have hsmallest := Denotes.small hone hsixteen
        rwa [hopcode, ← hdenoted] at hsmallest

theorem denotes_ofPush (h : data.length < 2 ^ 32) : Denotes (ofPush data) data :=
  denotes_iff.mpr ⟨wellFormed_ofPush h, isConstant_ofPush data, opcode_ofPush_ne_reserved data,
    denoted_ofPush data⟩

theorem size_pos (ins : Instruction) : 1 ≤ ins.size := by
  unfold size
  split <;> omega

theorem size_ofOpcode {opcode : UInt8} (h : Opcode.isPush opcode = false) :
    (ofOpcode opcode).size = 1 := by
  simp [size, ofOpcode, lengthWidth_of_bare h, h]

theorem ofPush_small {n : UInt8} (hone : 1 ≤ n) (hsixteen : n ≤ 16) :
    ofPush [n] = ofOpcode (Opcode.one + n - 1) := if_pos ⟨hone, hsixteen⟩

theorem Denotes.size_ofPush_le (h : Denotes ins data) : (ofPush data).size ≤ ins.size := by
  cases h with
  | minusOne => exact Nat.le_refl 1
  | small hone hsixteen => rw [ofPush_small hone hsixteen]
  | push hform hpush =>
    obtain ⟨opcode, hins, hbare, -⟩ | ⟨hins, -⟩ := ofPush_cases ins.data
    · rw [hins, size_ofOpcode hbare]
      exact size_pos ins
    · have hwidth := hform.lengthWidth_ofData_le hpush
      have hdata : (ofData ins.data).data = ins.data := rfl
      rw [hins, size_of_push rfl (isPush_ofData ins.data), hdata, size_of_push hform.whole hpush]
      omega

theorem WellFormed.eq_ofData_iff (h : ins.WellFormed) :
    ins = ofData ins.data ↔ ins.opcode = (ofData ins.data).opcode := by
  obtain ⟨opcode, data, cut⟩ := ins
  obtain rfl : cut = false := h.whole
  simp [ofData]

theorem WellFormed.isMinimal_iff_of_long (h : ins.WellFormed) (hpush : ins.isPush = true)
    (hlong : 2 ≤ ins.data.length) : ins.isMinimal = true ↔ ins = ofData ins.data := by
  have hlast : 0xffff < ins.data.length → ins.opcode = Opcode.pushData4 := by
    intro hlength
    rcases h.push_cases hpush with ⟨hdirect, hstated⟩ | ⟨-, hroom⟩ | ⟨-, hroom⟩ | hopcode
    · have hbound : ins.opcode.toNat ≤ 75 := hdirect
      omega
    · omega
    · omega
    · exact hopcode
  rw [h.eq_ofData_iff]
  obtain ⟨opcode, data, cut⟩ := ins
  match data, hlong with
  | first :: second :: rest, _ =>
    simp only [isMinimal, hpush, Bool.not_true, Bool.false_eq_true, ↓reduceIte, ofData]
    dsimp only at hlast
    split_ifs with hdirect hone htwo
    · rw [decide_eq_true_eq, ← UInt8.toNat_inj, UInt8.toNat_ofNat']
      omega
    · exact decide_eq_true_iff
    · exact decide_eq_true_iff
    · simpa using hlast (Nat.not_le.mp htwo)

/-- Among the pushes of the data only the one that is built for it passes for minimal. Where that
is an opcode without data, none does. -/
theorem WellFormed.isMinimal_iff (h : ins.WellFormed) (hpush : ins.isPush = true) :
    ins.isMinimal = true ↔ ins = ofPush ins.data := by
  have hlong := h.isMinimal_iff_of_long hpush
  obtain ⟨opcode, data, cut⟩ := ins
  obtain rfl : cut = false := h.whole
  have hother {other : UInt8} (hbare : Opcode.isPush other = false) : opcode ≠ other := by
    rintro rfl
    cases hbare.symm.trans hpush
  match data with
  | [] => simp [isMinimal, hpush, ofPush, ofOpcode]
  | [b] =>
    simp only [isMinimal, hpush, Bool.not_true, Bool.false_eq_true, ↓reduceIte, ofPush]
    split_ifs with hsmall hnegate
    · simp [hother (isPush_small hsmall.1 hsmall.2), ofOpcode]
    · simp [hother (show Opcode.isPush Opcode.negate1 = false from rfl), ofOpcode]
    · simp [ofData]
  | first :: second :: rest => exact hlong (by simp)

end Smallest

section Numbers

theorem ofPush_eq_ofData (hempty : data ≠ [])
    (hsmall : ∀ b, data = [b] → ¬(1 ≤ b ∧ b ≤ 16) ∧ b ≠ 0x81) : ofPush data = ofData data := by
  match data with
  | [] => exact absurd rfl hempty
  | [b] =>
    obtain ⟨hrange, hnegate⟩ := hsmall b rfl
    exact (if_neg hrange).trans (if_neg hnegate)
  | _ :: _ :: _ => rfl

theorem ofInt_eq_ofPush (n : Int) : ofInt n = ofPush (Number.encode n) := by
  unfold ofInt constant?
  split_ifs with hminus hzero hsmall
  · rw [hminus]
    decide +kernel
  · rw [hzero]
    decide +kernel
  · have hall : ∀ k : Fin 17, 1 ≤ k.val →
        ofOpcode (Opcode.one + UInt8.ofNat k.val - 1) = ofPush (Number.encode k.val) := by
      decide +kernel
    have hpush := hall ⟨n.toNat, by omega⟩ (by dsimp only; omega)
    have hcast : ((n.toNat : Nat) : Int) = n := Int.toNat_of_nonneg (by omega)
    rwa [hcast] at hpush
  · -- A number is known from its shortest form, so the strings with an opcode of their own belong
    -- to the numbers that are dealt with above.
    have hdecoded := Number.decode_encode n
    have hbyte : ∀ b : UInt8, 1 ≤ b ∧ b ≤ 16 → 1 ≤ Number.decode [b] ∧ Number.decode [b] ≤ 16 :=
      Opcode.forall_byte (by decide +kernel)
    symm
    apply ofPush_eq_ofData
    · intro hempty
      rw [hempty] at hdecoded
      exact hzero hdecoded.symm
    · intro b hb
      rw [hb] at hdecoded
      refine ⟨fun hrange => hsmall (hdecoded ▸ hbyte b hrange), ?_⟩
      rintro rfl
      exact hminus hdecoded.symm

end Numbers

/-- Building a push, checking that one is minimal and writing a number agree. What is built for the
data stands for it, is minimal and no larger than anything else that stands for it, and of the
pushes of the data no other is minimal. What is built for a number is what is built for its
shortest form. -/
theorem built_push_is_smallest :
    (∀ (data : Bytes) (ins : Instruction), data.length < 2 ^ 32 → Denotes ins data →
      Denotes (ofPush data) data ∧ (ofPush data).isMinimal = true ∧
      (ofPush data).size ≤ ins.size ∧
      (ins.isPush = true → (ins.isMinimal = true ↔ ins = ofPush data))) ∧
    ∀ n : Int, ofInt n = ofPush (Number.encode n) := by
  refine ⟨?_, ofInt_eq_ofPush⟩
  intro data ins hlength hins
  refine ⟨denotes_ofPush hlength, isMinimal_ofPush data, hins.size_ofPush_le, fun hpush => ?_⟩
  obtain ⟨hform, -, -, rfl⟩ := denotes_iff.mp hins
  rw [denoted_of_push hpush]
  exact hform.isMinimal_iff hpush

/-- Seven in a push with a length of its own, which is longer than needed. -/
theorem built_push_is_smallest_seven :
    let long : Instruction := { opcode := Opcode.pushData1, data := [7] }
    Denotes long [7] ∧ (ofPush [7]).size ≤ long.size ∧ long.isMinimal = false ∧
      ofInt 7 = ofPush [7] := by
  intro long
  have hform : long.WellFormed :=
    ⟨rfl, fun hdirect => absurd hdirect (by decide), fun _ _ => by decide,
      fun hbare => by cases hbare⟩
  have hlong : Denotes long [7] := .push hform rfl
  obtain ⟨hbuilt, hnumber⟩ := built_push_is_smallest
  obtain ⟨-, -, hsize, hminimal⟩ := hbuilt [7] long (by decide) hlong
  have hother : long ≠ ofPush [7] := by decide
  have hencoded : Number.encode 7 = [7] := by decide +kernel
  refine ⟨hlong, hsize, ?_, by rw [hnumber, hencoded]⟩
  rw [Bool.eq_false_iff]
  exact fun h => hother ((hminimal rfl).mp h)

end CoinScript.Instruction
