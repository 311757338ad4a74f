import CoinScript.Proofs.WireForm

/-! # Sequences of fields

Fields that are written one after the other are read back by readers of the same shapes in the same
order, whatever follows them. Where the bytes break off before the last field ends, the fields that
are whole are still read as they were written, and the first that is not whole finds itself past the
end.
-/
namespace CoinScript

/-- How far into its input a reader has come when it leaves `rest`. -/
def Reader.position (input rest : Bytes) : Nat := input.length - rest.length

namespace Wire

open Reader

/-- A string that is written after its length has a length of 64 bits. -/
def Field.Sized : Field → Prop
  | .varBytes bytes => bytes.length < 2 ^ 64
  | _ => True

def write (buffer : Bytes) (field : Field) : Bytes := buffer ++ field.encode

def writeAll (fields : List Field) : Bytes := fields.foldl write []

/-- Reads fields of the given shapes one after the other, up to the first that cannot be read. -/
def readAll : List Shape → Reader Fault (List Field)
  | [] => return []
  | shape :: shapes => do
    let field ← shape.read
    let fields ← readAll shapes
    return field :: fields

/-- The fields can be read up to some field, as they were written, and that field is past the end.
It is the first whose end lies behind the place where the input was cut. -/
def BreaksOff (fields : List Field) (cut : Nat) (input : Bytes) : Prop :=
  ∃ whole field others, fields = whole ++ field :: others ∧
    (writeAll whole).length ≤ cut ∧ cut < (writeAll (whole ++ [field])).length ∧
    ∃ mid left, readAll (whole.map Field.shape) input = (.ok whole, mid) ∧
      field.shape.read mid = (.error .pastEnd, left) ∧
      readAll (fields.map Field.shape) input = (.error .pastEnd, left)

section OneField

variable {field : Field}

theorem uint_form (width n : Nat) (hn : n < 256 ^ width) :
    (Bytes.ofNatLE width n).length = width ∧ n = Bytes.toNatLE (Bytes.ofNatLE width n) := by
  rw [Bytes.toNatLE_ofNatLE, Nat.mod_eq_of_lt hn]
  exact ⟨Bytes.length_ofNatLE width n, rfl⟩

theorem Field.exists_form (h : field.Sized) :
    ∃ Form, Reads field.shape.read Form ∧ Form field.encode field := by
  cases field with
  | u8 value => exact ⟨_, byte_reads.map Field.u8, value, rfl, rfl⟩
  | u16 value =>
    refine ⟨_, (uint_reads 2).map fun n => Field.u16 (UInt16.ofNat n), value.toNat, ?_, ?_⟩
    · exact uint_form 2 value.toNat value.toNat_lt
    · rw [UInt16.ofNat_toNat]
  | u32 value =>
    refine ⟨_, (uint_reads 4).map fun n => Field.u32 (UInt32.ofNat n), value.toNat, ?_, ?_⟩
    · exact uint_form 4 value.toNat value.toNat_lt
    · rw [UInt32.ofNat_toNat]
  | u64 value =>
    refine ⟨_, (uint_reads 8).map fun n => Field.u64 (UInt64.ofNat n), value.toNat, ?_, ?_⟩
    · exact uint_form 8 value.toNat value.toNat_lt
    · rw [UInt64.ofNat_toNat]
  | raw bytes => exact ⟨_, (take_reads bytes.length).map Field.raw, bytes, ⟨rfl, rfl⟩, rfl⟩
  | varInt value =>
    refine ⟨_, varInt_reads.map fun n => Field.varInt (UInt64.ofNat n), value.toNat, ?_, ?_⟩
    · exact VarInt.form_encode value.toNat_lt
    · rw [UInt64.ofNat_toNat]
  | varBytes bytes =>
    refine ⟨_, varBytes_reads.map Field.varBytes, bytes, ?_, rfl⟩
    exact ⟨VarInt.encode bytes.length, VarInt.form_encode h, rfl⟩

theorem Field.read_encode (h : field.Sized) (tail : Bytes) :
    field.shape.read (field.encode ++ tail) = (.ok field, tail) := by
  obtain ⟨Form, hreads, hform⟩ := Field.exists_form h
  exact hreads.append hform tail

theorem Field.read_of_cut (h : field.Sized) {cut : Nat} (hcut : cut < field.encode.length) :
    ∃ left, field.shape.read (field.encode.take cut) = (.error .pastEnd, left) := by
  obtain ⟨Form, hreads, hform⟩ := Field.exists_form h
  have hpart : field.encode.take cut ≠ field.encode := by
    intro hwhole
    have hlength := congrArg List.length hwhole
    rw [List.length_take] at hlength
    omega
  obtain ⟨fault, left, hread⟩ := hreads.error_of_cut hform (List.take_prefix cut _) hpart
  cases fault
  exact ⟨left, hread⟩

end OneField

section Sequences

variable {fields whole : List Field} {field : Field} {shape : Shape} {shapes : List Shape}
  {input mid rest : Bytes} {fault : Fault}

theorem writeAll_eq_flatMap (fields : List Field) :
    writeAll fields = fields.flatMap Field.encode := by
  have happend (buffer : Bytes) :
      fields.foldl write buffer = buffer ++ fields.flatMap Field.encode := by
    induction fields generalizing buffer with
    | nil => simp
    | cons field fields ih => simp [ih, write]
  exact happend []

theorem writeAll_cons (field : Field) (fields : List Field) :
    writeAll (field :: fields) = field.encode ++ writeAll fields := by
  rw [writeAll_eq_flatMap, writeAll_eq_flatMap, List.flatMap_cons]

theorem readAll_cons (hfield : shape.read input = (.ok field, mid))
    (hfields : readAll shapes mid = (.ok fields, rest)) :
    readAll (shape :: shapes) input = (.ok (field :: fields), rest) := by
  rw [readAll, bind_of_ok hfield, bind_of_ok hfields]
  rfl

theorem readAll_cons_of_error (hfield : shape.read input = (.error fault, rest)) :
    readAll (shape :: shapes) input = (.error fault, rest) := by
  rw [readAll, bind_of_error hfield]

theorem readAll_cons_of_later_error (hfield : shape.read input = (.ok field, mid))
    (hfields : readAll shapes mid = (.error fault, rest)) :
    readAll (shape :: shapes) input = (.error fault, rest) := by
  rw [readAll, bind_of_ok hfield, bind_of_error hfields]

theorem readAll_writeAll (h : ∀ field ∈ fields, field.Sized) (tail : Bytes) :
    readAll (fields.map Field.shape) (writeAll fields ++ tail) = (.ok fields, tail) := by
  induction fields with
  | nil => rfl
  | cons field fields ih =>
    obtain ⟨hfield, hfields⟩ := List.forall_mem_cons.mp h
    rw [writeAll_cons, List.append_assoc]
    exact readAll_cons (Field.read_encode hfield _) (ih hfields)

theorem breaksOff_here {cut : Nat} (h : field.Sized) (hcut : cut < field.encode.length) :
    BreaksOff (field :: fields) cut (field.encode.take cut) := by
  obtain ⟨left, hread⟩ := Field.read_of_cut h hcut
  refine ⟨[], field, fields, rfl, Nat.zero_le _, ?_, _, left, rfl, hread, ?_⟩
  · rw [List.nil_append, writeAll_cons, List.length_append]
    exact Nat.lt_add_right _ hcut
  · exact readAll_cons_of_error hread

theorem BreaksOff.cons {cut : Nat} (h : field.Sized) (hrest : BreaksOff fields cut rest) :
    BreaksOff (field :: fields) (field.encode.length + cut) (field.encode ++ rest) := by
  obtain ⟨whole, next, others, rfl, hlow, hhigh, mid, left, hwhole, hnext, hall⟩ := hrest
  have hfield := Field.read_encode h rest
  refine ⟨field :: whole, next, others, rfl, ?_, ?_, mid, left, readAll_cons hfield hwhole, hnext,
    readAll_cons_of_later_error hfield hall⟩
  · rw [writeAll_cons, List.length_append]
    omega
  · rw [List.cons_append, writeAll_cons, List.length_append]
    omega

theorem breaksOff_of_cut (h : ∀ field ∈ fields, field.Sized) {cut : Nat}
    (hcut : cut < (writeAll fields).length) :
    BreaksOff fields cut ((writeAll fields).take cut) := by
  induction fields generalizing cut with
  | nil => exact absurd hcut (Nat.not_lt_zero _)
  | cons field fields ih =>
    obtain ⟨hfield, hfields⟩ := List.forall_mem_cons.mp h
    rw [writeAll_cons, List.length_append] at hcut
    rw [writeAll_cons]
    by_cases hfirst : cut < field.encode.length
    · rw [List.take_append_of_le_length (Nat.le_of_lt hfirst)]
      exact breaksOff_here hfield hfirst
    · obtain ⟨more, rfl⟩ := Nat.exists_eq_add_of_le (Nat.not_lt.mp hfirst)
      rw [List.take_length_add_append]
      exact (ih hfields (by omega)).cons hfield

end Sequences

/-- What is written is read back. Reading fields in the order in which they were written gives them
again, comes as far as they were written, and leaves what follows them. From less than what was
written, the fields before the cut are read as they were written, and the first field that is not
whole is past the end. A number takes as many bytes as its length says. -/
theorem written_fields_read_back :
    (∀ fields : List Field, (∀ field ∈ fields, field.Sized) →
      (∀ tail, ∃ rest, readAll (fields.map Field.shape) (writeAll fields ++ tail) =
          (.ok fields, rest) ∧
        position (writeAll fields ++ tail) rest = (writeAll fields).length ∧ rest = tail) ∧
      ∀ cut, cut < (writeAll fields).length →
        BreaksOff fields cut ((writeAll fields).take cut)) ∧
    ∀ value : UInt64, (VarInt.encode value.toNat).length = VarInt.length value.toNat := by
  refine ⟨fun fields hsized => ⟨fun tail => ?_, ?_⟩, ?_⟩
  · refine ⟨tail, readAll_writeAll hsized tail, ?_, rfl⟩
    rw [position, List.length_append, Nat.add_sub_cancel]
  · intro cut hcut
    exact breaksOff_of_cut hsized hcut
  · intro value
    exact VarInt.length_encode value.toNat

/-- The least number that takes three bytes, an empty string, and a cut within a string whose length
is still there. -/
theorem written_fields_read_back_cut :
    let fields : List Field :=
      [.u16 0x1234, .varInt 0xfd, .raw [], .varBytes [0xaa, 0xbb], .u8 0x07]
    let written : Bytes := [0x34, 0x12, 0xfd, 0xfd, 0x00, 0x02, 0xaa, 0xbb, 0x07]
    writeAll fields = written ∧
    readAll (fields.map Field.shape) (written ++ [0x99]) = (.ok fields, [0x99]) ∧
    BreaksOff fields 7 [0x34, 0x12, 0xfd, 0xfd, 0x00, 0x02, 0xaa] ∧
    (VarInt.encode 0xfd).length = 3 := by
  intro fields written
  obtain ⟨hfields, hlength⟩ := written_fields_read_back
  have hwritten : writeAll fields = written := by decide +kernel
  have hsized : ∀ field ∈ fields, field.Sized := by simp [fields, Field.Sized]
  obtain ⟨hread, hcut⟩ := hfields fields hsized
  rw [hwritten] at hread hcut
  obtain ⟨rest, hrest, -, rfl⟩ := hread [0x99]
  exact ⟨hwritten, hrest, hcut 7 (by decide), hlength 0xfd⟩

end Wire

end CoinScript
