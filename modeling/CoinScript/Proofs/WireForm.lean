import CoinScript.Proofs.Decoding

/-! # Forms on the wire

A reader accepts a value in one or more forms, and it takes a form off the front of whatever input
starts with it. So forms are told apart without looking past their end: an input that breaks off
within a form is not accepted. A number has up to four forms of variable length, one of which is the
shortest and is the one that is written.
-/
namespace CoinScript

namespace Reader

variable {ε ε' α β : Type} {r : Reader ε α} {next : α → Reader ε β} {Form : Bytes → α → Prop}
  {NextForm : α → Bytes → β → Prop}

section Outcomes

variable {input rest : Bytes} {a : α} {fault : ε}

theorem bind_of_ok (h : r input = (.ok a, rest)) : (r >>= next) input = next a rest := by
  show andThen r next input = next a rest
  rw [andThen, h]

theorem bind_of_error (h : r input = (.error fault, rest)) :
    (r >>= next) input = (.error fault, rest) := by
  show andThen r next input = (.error fault, rest)
  rw [andThen, h]

theorem mapError_of_ok (f : ε → ε') (h : r input = (.ok a, rest)) :
    r.mapError f input = (.ok a, rest) := by
  rw [mapError, h]

theorem mapError_of_error (f : ε → ε') (h : r input = (.error fault, rest)) :
    r.mapError f input = (.error (f fault), rest) := by
  rw [mapError, h]

theorem ofExcept_run (result : Except ε α) : ofExcept result input = (result, input) := by
  cases result <;> rfl

end Outcomes

/-- The reader accepts exactly the inputs that start with a form of a value, and leaves what comes
after the form. -/
def Reads (r : Reader ε α) (Form : Bytes → α → Prop) : Prop :=
  ∀ input a rest, r input = (.ok a, rest) ↔ ∃ form, Form form a ∧ input = form ++ rest

/-- Forms of several values, one after the other. -/
inductive InRow (Form : Bytes → α → Prop) : Bytes → List α → Prop
  | nil : InRow Form [] []
  | cons {form row : Bytes} {a : α} {as : List α} : Form form a → InRow Form row as →
    InRow Form (form ++ row) (a :: as)

namespace Reads

theorem congr {Other : Bytes → α → Prop} (h : Reads r Form)
    (hforms : ∀ form a, Form form a ↔ Other form a) : Reads r Other := by
  intro input a rest
  rw [h]
  simp only [hforms]

theorem mapError (h : Reads r Form) (f : ε → ε') : Reads (r.mapError f) Form := by
  intro input a rest
  rw [mapError_eq_ok_iff]
  exact h input a rest

theorem pure (a : α) : Reads (Reader.ok a : Reader ε α) fun form b => form = [] ∧ b = a := by
  intro input b rest
  constructor
  · intro h
    cases h
    exact ⟨[], ⟨rfl, rfl⟩, rfl⟩
  · rintro ⟨form, ⟨rfl, rfl⟩, rfl⟩
    rfl

theorem bind (hr : Reads r Form) (hnext : ∀ a, Reads (next a) (NextForm a)) :
    Reads (r >>= next) fun form b => ∃ front a back, Form front a ∧ NextForm a back b ∧
      form = front ++ back := by
  intro input b rest
  rw [bind_eq_ok_iff]
  constructor
  · rintro ⟨a, mid, hfirst, hsecond⟩
    obtain ⟨front, hfront, rfl⟩ := (hr ..).mp hfirst
    obtain ⟨back, hback, rfl⟩ := (hnext a ..).mp hsecond
    exact ⟨front ++ back, ⟨front, a, back, hfront, hback, rfl⟩, (List.append_assoc ..).symm⟩
  · rintro ⟨_, ⟨front, a, back, hfront, hback, rfl⟩, rfl⟩
    refine ⟨a, back ++ rest, (hr ..).mpr ⟨front, hfront, List.append_assoc ..⟩, ?_⟩
    exact (hnext a ..).mpr ⟨back, hback, rfl⟩

theorem map (h : Reads r Form) (f : α → β) :
    Reads (do return f (← r)) fun form b => ∃ a, Form form a ∧ b = f a := by
  refine (h.bind fun a => pure (f a)).congr ?_
  intro form b
  constructor
  · rintro ⟨front, a, _, hform, ⟨rfl, rfl⟩, rfl⟩
    exact ⟨a, (List.append_nil front).symm ▸ hform, rfl⟩
  · rintro ⟨a, hform, rfl⟩
    exact ⟨form, a, [], hform, ⟨rfl, rfl⟩, (List.append_nil form).symm⟩

theorem times (h : Reads r Form) (count : Nat) :
    Reads (r.times count) fun form as => as.length = count ∧ InRow Form form as := by
  induction count with
  | zero =>
    refine (pure []).congr ?_
    intro form as
    constructor
    · rintro ⟨rfl, rfl⟩
      exact ⟨rfl, .nil⟩
    · rintro ⟨hcount, hrow⟩
      cases hrow with
      | nil => exact ⟨rfl, rfl⟩
      | cons => cases hcount
  | succ count ih =>
    refine (h.bind fun a => ih.map (a :: ·)).congr ?_
    intro form as
    constructor
    · rintro ⟨front, a, row, hfront, ⟨as, ⟨hcount, hrow⟩, rfl⟩, rfl⟩
      exact ⟨congrArg Nat.succ hcount, .cons hfront hrow⟩
    · rintro ⟨hcount, hrow⟩
      cases hrow with
      | nil => cases hcount
      | cons hfront hrow =>
        exact ⟨_, _, _, hfront, ⟨_, ⟨Nat.succ.inj hcount, hrow⟩, rfl⟩, rfl⟩

variable {form other front rest rest' : Bytes} {a b : α}

theorem append (h : Reads r Form) (hform : Form form a) (rest : Bytes) :
    r (form ++ rest) = (.ok a, rest) :=
  (h ..).mpr ⟨form, hform, rfl⟩

/-- An input starts with one form at most. -/
theorem append_inj (h : Reads r Form) (hform : Form form a) (hother : Form other b)
    (heq : form ++ rest = other ++ rest') : form = other ∧ a = b ∧ rest = rest' := by
  have hsame : ((.ok a, rest) : Except ε α × Bytes) = (.ok b, rest') := by
    rw [← h.append hform rest, heq, h.append hother rest']
  cases hsame
  exact ⟨List.append_cancel_right heq, rfl, rfl⟩

/-- No form starts with a part of another one that the reader accepts. -/
theorem error_of_cut (h : Reads r Form) (hform : Form form a) (hfront : front <+: form)
    (hcut : front ≠ form) : ∃ fault left, r front = (.error fault, left) := by
  obtain ⟨missing, rfl⟩ := hfront
  rcases hresult : r front with ⟨fault | b, rest⟩
  · exact ⟨fault, rest, rfl⟩
  · obtain ⟨other, hother, rfl⟩ := (h ..).mp hresult
    have heq : (other ++ rest ++ missing) ++ [] = other ++ (rest ++ missing) := by
      rw [List.append_nil, List.append_assoc]
    obtain ⟨-, -, hnothing⟩ := h.append_inj hform hother heq
    have hmissing : missing = [] := (List.append_eq_nil_iff.mp hnothing.symm).2
    rw [hmissing, List.append_nil] at hcut
    exact absurd rfl hcut

end Reads

end Reader

namespace Wire

open Reader

theorem take_reads (n : Nat) : Reads (take n) fun form bytes => bytes = form ∧ form.length = n := by
  intro input bytes rest
  rw [take_eq_ok_iff]
  grind

theorem take_of_short {n : Nat} {input : Bytes} (h : input.length < n) :
    take n input = (.error .pastEnd, input) := by
  rw [take, Bytes.split?_eq_none_iff.mpr h]

theorem byte_reads : Reads byte fun form b => form = [b] := by
  intro input b rest
  cases input with
  | nil => simp [byte]
  | cons first input =>
    simp only [byte, exists_eq_left, List.singleton_append, List.cons.injEq, Prod.mk.injEq,
      Except.ok.injEq]

theorem uint_reads (width : Nat) : Reads (uint width) fun form n =>
    form.length = width ∧ n = Bytes.toNatLE form := by
  intro input n rest
  rw [uint_eq_ok_iff]
  grind

end Wire

namespace VarInt

/-- The marks that announce a number of two, four or eight bytes. -/
inductive Mark : UInt8 → Nat → Prop
  | two : Mark 0xfd 2
  | four : Mark 0xfe 4
  | eight : Mark 0xff 8

/-- The forms of a number: one byte that is no mark, or a mark and as many bytes as it says. -/
inductive Form : Bytes → Nat → Prop
  | byte {b : UInt8} : b < 0xfd → Form [b] b.toNat
  | wide {mark : UInt8} {width : Nat} {field : Bytes} : Mark mark width → field.length = width →
    Form (mark :: field) (Bytes.toNatLE field)

/-- A form of the number such that no other is shorter. -/
def Shortest (form : Bytes) (n : Nat) : Prop :=
  Form form n ∧ ∀ other, Form other n → form.length ≤ other.length

variable {form other field : Bytes} {n width : Nat} {first mark : UInt8}

theorem Mark.not_lt (h : Mark mark width) : ¬mark < 0xfd := by
  cases h <;> decide

theorem form_mark_iff (h : Mark mark width) :
    Form (mark :: field) n ↔ field.length = width ∧ n = Bytes.toNatLE field := by
  constructor
  · intro hform
    cases hform with
    | byte hsmall => exact absurd hsmall h.not_lt
    | wide hmark hlength =>
      refine ⟨?_, rfl⟩
      cases h <;> cases hmark <;> exact hlength
  · rintro ⟨hlength, rfl⟩
    exact .wide h hlength

theorem form_byte_iff (h : first < 0xfd) :
    Form (first :: field) n ↔ field = [] ∧ n = first.toNat := by
  constructor
  · intro hform
    cases hform with
    | byte => exact ⟨rfl, rfl⟩
    | wide hmark => exact absurd h hmark.not_lt
  · rintro ⟨rfl, rfl⟩
    exact .byte h

theorem Form.length_pos (h : Form form n) : 0 < form.length := by
  cases h <;> exact Nat.succ_pos _

theorem Form.lt (h : Form form n) : n < 2 ^ 64 := by
  cases h with
  | @byte b =>
    have hb := b.toNat_lt
    omega
  | @wide mark width field hmark hlength =>
    have hfield := Bytes.toNatLE_lt field
    rw [hlength] at hfield
    cases hmark <;> omega

theorem form_ofNatLE (hmark : Mark mark width) (h : n < 256 ^ width) :
    Form (mark :: Bytes.ofNatLE width n) n := by
  have hvalue : Bytes.toNatLE (Bytes.ofNatLE width n) = n := by
    rw [Bytes.toNatLE_ofNatLE, Nat.mod_eq_of_lt h]
  exact (form_mark_iff hmark).mpr ⟨Bytes.length_ofNatLE width n, hvalue.symm⟩

theorem form_encode (h : n < 2 ^ 64) : Form (encode n) n := by
  unfold encode
  split
  · next hsmall =>
    have hvalue : (UInt8.ofNat n).toNat = n := by
      rw [UInt8.toNat_ofNat']
      omega
    refine (form_byte_iff ?_).mpr ⟨rfl, hvalue.symm⟩
    rw [UInt8.lt_iff_toNat_lt, hvalue]
    exact hsmall
  · split
    · exact form_ofNatLE .two (by omega)
    · split
      · exact form_ofNatLE .four (by omega)
      · exact form_ofNatLE .eight (by omega)

theorem Form.length_encode_le (h : Form form n) : (encode n).length ≤ form.length := by
  rw [length_encode]
  cases h with
  | @byte b hb =>
    have hsmall : b.toNat < 0xfd := UInt8.lt_iff_toNat_lt.mp hb
    rw [VarInt.length, if_pos hsmall]
    rfl
  | @wide mark width field hmark hlength =>
    have hfield := Bytes.toNatLE_lt field
    rw [hlength] at hfield
    rw [List.length_cons, hlength]
    unfold VarInt.length
    cases hmark <;> grind

theorem encode_of_length (hmark : Mark mark width) (h : length n = width + 1) :
    encode n = mark :: Bytes.ofNatLE width n := by
  unfold length at h
  unfold encode
  cases hmark <;> grind

/-- Among the forms of a number, the one that is written is the only one of its length. -/
theorem Form.eq_encode_of_length (h : Form form n) (hlength : form.length = (encode n).length) :
    form = encode n := by
  cases h with
  | @byte b hb =>
    have hsmall : b.toNat < 0xfd := UInt8.lt_iff_toNat_lt.mp hb
    rw [encode, if_pos hsmall, UInt8.ofNat_toNat]
  | @wide mark width field hmark hfield =>
    rw [length_encode, List.length_cons, hfield] at hlength
    rw [encode_of_length hmark hlength.symm, ← hfield, Bytes.ofNatLE_toNatLE]

theorem Form.shortest_iff (h : Form form n) : Shortest form n ↔ form = encode n := by
  constructor
  · rintro ⟨-, hleast⟩
    have hle := hleast (encode n) (form_encode h.lt)
    exact h.eq_encode_of_length (Nat.le_antisymm hle h.length_encode_le)
  · rintro rfl
    exact ⟨h, fun other hother => hother.length_encode_le⟩

end VarInt

namespace Wire

open Reader

theorem varInt_reads : Reads varInt VarInt.Form := by
  have hafter (first : UInt8) : Reads (if first = 0xff then uint 8 else if first = 0xfe then uint 4
      else if first = 0xfd then uint 2 else return first.toNat)
      fun field n => VarInt.Form (first :: field) n := by
    split
    · next h => exact (uint_reads 8).congr fun _ _ => (VarInt.form_mark_iff (h ▸ .eight)).symm
    · split
      · next h => exact (uint_reads 4).congr fun _ _ => (VarInt.form_mark_iff (h ▸ .four)).symm
      · split
        · next h => exact (uint_reads 2).congr fun _ _ => (VarInt.form_mark_iff (h ▸ .two)).symm
        · have hsmall : first < 0xfd := by grind
          exact (Reads.pure first.toNat).congr fun _ _ => (VarInt.form_byte_iff hsmall).symm
  refine (byte_reads.bind hafter).congr ?_
  intro form n
  constructor
  · rintro ⟨_, first, field, rfl, hform, rfl⟩
    exact hform
  · intro hform
    cases form with
    | nil => cases hform
    | cons first field => exact ⟨[first], first, field, rfl, hform, rfl⟩

theorem varBytes_reads : Reads varBytes fun form bytes =>
    ∃ length, VarInt.Form length bytes.length ∧ form = length ++ bytes := by
  refine (varInt_reads.bind fun n => take_reads n).congr ?_
  intro form bytes
  constructor
  · rintro ⟨length, n, _, hlength, ⟨rfl, rfl⟩, rfl⟩
    exact ⟨length, hlength, rfl⟩
  · rintro ⟨length, hlength, rfl⟩
    exact ⟨length, bytes.length, bytes, hlength, ⟨rfl, rfl⟩, rfl⟩

end Wire

end CoinScript
