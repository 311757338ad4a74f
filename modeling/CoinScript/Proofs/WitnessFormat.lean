import CoinScript.Proofs.WireForm
import CoinScript.Witness

/-! # Witnesses on the wire

A witness is read back as it was written, whatever follows it, and it cannot be read from less. The
count and the lengths are also accepted in forms that are longer than need be; so other strings
stand for the same witness, but none of them is shorter than the one that is written, and that one
is told by all its numbers being in their shortest form.
-/
namespace CoinScript.Witness

open Reader

/-- An item with the form of its length that stands before it. -/
structure Piece where
  length : Bytes
  item : Bytes
deriving DecidableEq, Repr

namespace Piece

def bytes (piece : Piece) : Bytes := piece.length ++ piece.item

/-- What stands before the item says how long it is. -/
def Valid (piece : Piece) : Prop := VarInt.Form piece.length piece.item.length

/-- What stands before the item says it as shortly as possible. -/
def Shortest (piece : Piece) : Prop := VarInt.Shortest piece.length piece.item.length

def written (item : Bytes) : Piece := ⟨VarInt.encode item.length, item⟩

theorem written_valid {item : Bytes} (h : item.length < 2 ^ 64) : (written item).Valid :=
  VarInt.form_encode h

theorem bytes_written (item : Bytes) : (written item).bytes = Wire.encodeVarBytes item := rfl

theorem Valid.length_written_le {piece : Piece} (h : piece.Valid) :
    (written piece.item).bytes.length ≤ piece.bytes.length := by
  simp only [bytes, written, List.length_append]
  exact Nat.add_le_add_right h.length_encode_le _

theorem Valid.shortest_iff {piece : Piece} (h : piece.Valid) :
    piece.Shortest ↔ piece = written piece.item := by
  obtain ⟨length, item⟩ := piece
  rw [Shortest, VarInt.Form.shortest_iff h]
  simp [written]

theorem Valid.append_inj {piece other : Piece} {rest rest' : Bytes} (h : piece.Valid)
    (hother : other.Valid) (heq : piece.bytes ++ rest = other.bytes ++ rest') :
    piece = other ∧ rest = rest' := by
  obtain ⟨length, item⟩ := piece
  obtain ⟨length', item'⟩ := other
  simp only [bytes, List.append_assoc] at heq
  obtain ⟨rfl, hsame, hrest⟩ := Wire.varInt_reads.append_inj h hother heq
  obtain ⟨rfl, rfl⟩ := List.append_inj hrest hsame
  exact ⟨rfl, rfl⟩

section Rows

variable {pieces others : List Piece} {rest rest' : Bytes}

theorem length_written_row_le (h : ∀ piece ∈ pieces, piece.Valid) :
    ((pieces.map item).flatMap Wire.encodeVarBytes).length ≤ (pieces.flatMap bytes).length := by
  induction pieces with
  | nil => exact Nat.le_refl _
  | cons piece pieces ih =>
    obtain ⟨hpiece, hrest⟩ := List.forall_mem_cons.mp h
    simp only [List.map_cons, List.flatMap_cons, List.length_append]
    exact Nat.add_le_add hpiece.length_written_le (ih hrest)

theorem length_le_row (h : ∀ piece ∈ pieces, piece.Valid) :
    pieces.length ≤ (pieces.flatMap bytes).length := by
  induction pieces with
  | nil => exact Nat.le_refl _
  | cons piece pieces ih =>
    obtain ⟨hpiece, hrest⟩ := List.forall_mem_cons.mp h
    have hpos := VarInt.Form.length_pos hpiece
    have hle := ih hrest
    simp only [List.length_cons, List.flatMap_cons, List.length_append, bytes]
    omega

theorem written_row_iff :
    pieces = (pieces.map item).map written ↔ ∀ piece ∈ pieces, piece = written piece.item := by
  rw [List.map_map]
  constructor
  · intro h piece hmem
    rw [h] at hmem
    obtain ⟨other, -, rfl⟩ := List.mem_map.mp hmem
    rfl
  · intro h
    exact (List.map_id pieces).symm.trans (List.map_congr_left h)

theorem row_append_inj (h : ∀ piece ∈ pieces, piece.Valid) (hothers : ∀ piece ∈ others, piece.Valid)
    (hlength : pieces.length = others.length)
    (heq : pieces.flatMap bytes ++ rest = others.flatMap bytes ++ rest') :
    pieces = others ∧ rest = rest' := by
  induction pieces generalizing others with
  | nil =>
    obtain rfl := List.eq_nil_of_length_eq_zero hlength.symm
    exact ⟨rfl, heq⟩
  | cons piece pieces ih =>
    cases others with
    | nil => cases hlength
    | cons other others =>
      obtain ⟨hpiece, hpieces⟩ := List.forall_mem_cons.mp h
      obtain ⟨hother, hrest'⟩ := List.forall_mem_cons.mp hothers
      rw [List.flatMap_cons, List.flatMap_cons, List.append_assoc, List.append_assoc] at heq
      obtain ⟨rfl, hrow⟩ := hpiece.append_inj hother heq
      obtain ⟨rfl, hrest⟩ := ih hpieces hrest' (Nat.succ.inj hlength) hrow
      exact ⟨rfl, hrest⟩

theorem inRow_iff {form : Bytes} {w : Witness} :
    InRow (fun form item => ∃ length, VarInt.Form length item.length ∧ form = length ++ item)
        form w ↔
      ∃ pieces : List Piece, (∀ piece ∈ pieces, piece.Valid) ∧ w = pieces.map item ∧
        form = pieces.flatMap bytes := by
  constructor
  · intro h
    induction h with
    | nil => exact ⟨[], List.forall_mem_nil _, rfl, rfl⟩
    | @cons _ _ item _ hform _ ih =>
      obtain ⟨length, hlength, rfl⟩ := hform
      obtain ⟨pieces, hpieces, rfl, rfl⟩ := ih
      exact ⟨⟨length, item⟩ :: pieces, List.forall_mem_cons.mpr ⟨hlength, hpieces⟩, rfl, rfl⟩
  · rintro ⟨pieces, hpieces, rfl, rfl⟩
    induction pieces with
    | nil => exact .nil
    | cons piece pieces ih =>
      obtain ⟨hpiece, hrest⟩ := List.forall_mem_cons.mp hpieces
      exact .cons ⟨piece.length, hpiece, rfl⟩ (ih hrest)

end Rows

end Piece

/-- Counts and lengths on the wire are numbers of 64 bits. -/
structure Sized (w : Witness) : Prop where
  count : w.length < 2 ^ 64
  lengths : ∀ item ∈ w, item.length < 2 ^ 64

/-- The parts of a witness on the wire: the form of its count and the items with their lengths. -/
structure Layout where
  count : Bytes
  pieces : List Piece
deriving DecidableEq, Repr

namespace Layout

variable {l : Layout} {w : Witness}

def bytes (l : Layout) : Bytes := l.count ++ l.pieces.flatMap Piece.bytes

def witness (l : Layout) : Witness := l.pieces.map Piece.item

/-- All numbers say what they should. -/
structure Valid (l : Layout) : Prop where
  count : VarInt.Form l.count l.pieces.length
  lengths : ∀ piece ∈ l.pieces, piece.Valid

/-- All numbers are in their shortest form. -/
structure Shortest (l : Layout) : Prop where
  count : VarInt.Shortest l.count l.pieces.length
  lengths : ∀ piece ∈ l.pieces, piece.Shortest

def written (w : Witness) : Layout := ⟨VarInt.encode w.length, w.map Piece.written⟩

theorem bytes_written (w : Witness) : (written w).bytes = encode w := by
  simp only [bytes, written, List.flatMap_map, Piece.bytes_written, encode]

theorem witness_written (w : Witness) : (written w).witness = w := by
  simp [witness, written, Piece.written, Function.comp_def]

theorem written_valid (h : w.Sized) : (written w).Valid := by
  constructor
  · show VarInt.Form (VarInt.encode w.length) (w.map Piece.written).length
    rw [List.length_map]
    exact VarInt.form_encode h.count
  · intro piece hmem
    obtain ⟨item, hitem, rfl⟩ := List.mem_map.mp hmem
    exact Piece.written_valid (h.lengths item hitem)

theorem length_witness (l : Layout) : l.witness.length = l.pieces.length := List.length_map ..

theorem Valid.length_encode_le (h : l.Valid) : (encode l.witness).length ≤ l.bytes.length := by
  rw [encode, bytes, List.length_append, List.length_append, length_witness]
  exact Nat.add_le_add h.count.length_encode_le (Piece.length_written_row_le h.lengths)

theorem Valid.sized (h : l.Valid) : l.witness.Sized := by
  refine ⟨l.length_witness ▸ h.count.lt, ?_⟩
  intro item hitem
  obtain ⟨piece, hpiece, rfl⟩ := List.mem_map.mp hitem
  exact (h.lengths piece hpiece).lt

theorem Valid.shortest_iff (h : l.Valid) : l.Shortest ↔ l = written l.witness := by
  have hlengths : (∀ piece ∈ l.pieces, piece.Shortest) ↔
      l.pieces = (l.pieces.map Piece.item).map Piece.written := by
    rw [Piece.written_row_iff]
    exact forall₂_congr fun piece hmem => (h.lengths piece hmem).shortest_iff
  calc
    l.Shortest ↔ VarInt.Shortest l.count l.pieces.length ∧ ∀ piece ∈ l.pieces, piece.Shortest :=
      ⟨fun hshort => ⟨hshort.count, hshort.lengths⟩, fun hshort => ⟨hshort.1, hshort.2⟩⟩
    _ ↔ l.count = VarInt.encode l.witness.length ∧
        l.pieces = (l.pieces.map Piece.item).map Piece.written := by
      rw [h.count.shortest_iff, hlengths, length_witness]
    _ ↔ l = written l.witness := (Layout.mk.injEq ..).to_iff.symm

theorem Valid.eq_of_bytes {other : Layout} (h : l.Valid) (hother : other.Valid)
    (heq : l.bytes = other.bytes) : l = other := by
  obtain ⟨count, pieces⟩ := l
  obtain ⟨count', pieces'⟩ := other
  obtain ⟨rfl, hlength, hrow⟩ := Wire.varInt_reads.append_inj h.count hother.count heq
  have hpieces : pieces.flatMap Piece.bytes ++ [] = pieces'.flatMap Piece.bytes ++ [] :=
    congrArg (· ++ []) hrow
  obtain ⟨rfl, -⟩ := Piece.row_append_inj h.lengths hother.lengths hlength hpieces
  rfl

/-- What is written is the one layout whose numbers are in their shortest form. -/
theorem Valid.encode_eq_iff (h : l.Valid) : encode l.witness = l.bytes ↔ l.Shortest := by
  rw [h.shortest_iff]
  constructor
  · intro heq
    have hsame : (written l.witness).bytes = l.bytes := (bytes_written _).trans heq
    exact h.eq_of_bytes (written_valid h.sized) hsame.symm
  · intro heq
    calc
      encode l.witness = (written l.witness).bytes := (bytes_written _).symm
      _ = l.bytes := congrArg bytes heq.symm

end Layout

section Reading

def readItems (count : Nat) : Reader ParseFault Witness := do
  let left ← Reader.remaining
  if left < count then .fail .tooShort
  else (Wire.varBytes.mapError .wire).times count

theorem readItems_reads (count : Nat) : Reads (readItems count) fun form w =>
    ∃ pieces : List Piece, (∀ piece ∈ pieces, piece.Valid) ∧ pieces.length = count ∧
      w = pieces.map Piece.item ∧ form = pieces.flatMap Piece.bytes := by
  have htimes : Reads ((Wire.varBytes.mapError .wire).times count : Reader ParseFault Witness)
      fun form w => ∃ pieces : List Piece, (∀ piece ∈ pieces, piece.Valid) ∧ pieces.length = count ∧
        w = pieces.map Piece.item ∧ form = pieces.flatMap Piece.bytes := by
    refine ((Wire.varBytes_reads.mapError _).times count).congr ?_
    intro form w
    rw [Piece.inRow_iff]
    constructor
    · rintro ⟨hcount, pieces, hpieces, rfl, rfl⟩
      exact ⟨pieces, hpieces, (List.length_map ..).symm.trans hcount, rfl, rfl⟩
    · rintro ⟨pieces, hpieces, hcount, rfl, rfl⟩
      exact ⟨(List.length_map ..).trans hcount, pieces, hpieces, rfl, rfl⟩
  intro input w rest
  by_cases hshort : input.length < count
  · have hread : readItems count input = (.error .tooShort, input) := by
      show (if input.length < count then _ else _ : Reader ParseFault Witness) input = _
      rw [if_pos hshort]
      rfl
    rw [hread]
    constructor
    · rintro ⟨⟩
    · rintro ⟨_, ⟨pieces, hpieces, rfl, rfl, rfl⟩, rfl⟩
      have hroom := Piece.length_le_row hpieces
      rw [List.length_append] at hshort
      omega
  · have hread : readItems count input = (Wire.varBytes.mapError .wire).times count input := by
      show (if input.length < count then _ else _ : Reader ParseFault Witness) input = _
      rw [if_neg hshort]
    rw [hread]
    exact htimes input w rest

theorem read_reads : Reads read fun form w =>
    ∃ l : Layout, l.Valid ∧ l.witness = w ∧ form = l.bytes := by
  refine ((Wire.varInt_reads.mapError .wire).bind readItems_reads).congr ?_
  intro form w
  constructor
  · rintro ⟨count, _, _, hcount, ⟨pieces, hpieces, rfl, rfl, rfl⟩, rfl⟩
    exact ⟨⟨count, pieces⟩, ⟨hcount, hpieces⟩, rfl, rfl⟩
  · rintro ⟨l, hvalid, rfl, rfl⟩
    exact ⟨l.count, l.pieces.length, _, hvalid.count,
      ⟨l.pieces, hvalid.lengths, rfl, rfl, rfl⟩, rfl⟩

end Reading

/-- The wire format of witnesses. What is written is read back and nothing of what follows is
touched, and no part that it starts with can be read. What is read may have been written in
other ways, but not in fewer bytes, and it has been written in this way exactly if the count and
every length are in their shortest form. -/
theorem witness_format_prefix_free :
    (∀ w : Witness, w.Sized →
      (∀ tail, read (encode w ++ tail) = (.ok w, tail)) ∧
      ∀ front, front <+: encode w → front ≠ encode w →
        ∃ fault left, read front = (.error fault, left)) ∧
    ∀ (input : Bytes) (w : Witness) (rest : Bytes), read input = (.ok w, rest) →
      ∃ l : Layout, l.Valid ∧ l.witness = w ∧ input = l.bytes ++ rest ∧
        (encode w).length ≤ l.bytes.length ∧ (encode w = l.bytes ↔ l.Shortest) := by
  constructor
  · intro w hsized
    have hform : ∃ l : Layout, l.Valid ∧ l.witness = w ∧ encode w = l.bytes :=
      ⟨.written w, Layout.written_valid hsized, Layout.witness_written w,
        (Layout.bytes_written w).symm⟩
    constructor
    · exact read_reads.append hform
    · intro front hfront hcut
      exact read_reads.error_of_cut hform hfront hcut
  · intro input w rest h
    obtain ⟨_, ⟨l, hvalid, rfl, rfl⟩, rfl⟩ := (read_reads ..).mp h
    exact ⟨l, hvalid, rfl, rfl, hvalid.length_encode_le, hvalid.encode_eq_iff⟩

/-- Two items, with their count as it is written and in three bytes. -/
theorem witness_format_prefix_free_padded :
    let w : Witness := [[], [0xaa, 0xbb]]
    read (encode w ++ [0x99]) = (.ok w, [0x99]) ∧
    (∃ fault left, read [0x02, 0x00, 0x02, 0xaa] = (.error fault, left)) ∧
    ∃ l : Layout, l.witness = w ∧ l.bytes = [0xfd, 0x02, 0x00, 0x00, 0x02, 0xaa, 0xbb] ∧
      ¬l.Shortest := by
  intro w
  obtain ⟨hwritten, haccepted⟩ := witness_format_prefix_free
  have hsized : w.Sized := ⟨by decide, by decide⟩
  have hencode : encode w = [0x02, 0x00, 0x02, 0xaa, 0xbb] := by decide +kernel
  have hpadded : read ([0xfd, 0x02, 0x00, 0x00, 0x02, 0xaa, 0xbb] ++ [0x99]) = (.ok w, [0x99]) := by
    rfl
  refine ⟨(hwritten w hsized).1 [0x99], ?_, ?_⟩
  · refine (hwritten w hsized).2 [0x02, 0x00, 0x02, 0xaa] ?_ ?_
    · rw [hencode]
      exact ⟨[0xbb], rfl⟩
    · rw [hencode]
      decide
  · obtain ⟨l, -, hw, hinput, -, hshortest⟩ := haccepted _ w [0x99] hpadded
    have hbytes := List.append_cancel_right hinput
    refine ⟨l, hw, hbytes.symm, ?_⟩
    rw [← hshortest, hencode, ← hbytes]
    decide

end CoinScript.Witness
