/-! # Byte strings

Scripts, keys, signatures and stack items are all byte strings. They are plain lists,
so that a reader consumes them from the front and a writer appends to them. Integers
of a fixed width are written little-endian on the wire and big-endian inside keys,
signatures and digests.
-/
namespace CoinScript

abbrev Bytes := List UInt8

namespace Bytes

/-- The first `n` bytes and what follows them, or nothing when fewer are left. -/
def split? : Nat → Bytes → Option (Bytes × Bytes)
  | 0, s => some ([], s)
  | _ + 1, [] => none
  | n + 1, b :: s => (split? n s).map fun (front, rest) => (b :: front, rest)

theorem split?_eq_some {n : Nat} {s front rest : Bytes} (h : split? n s = some (front, rest)) :
    s = front ++ rest ∧ front.length = n := by
  induction n generalizing s front with
  | zero => simp_all [split?]
  | succ n ih =>
    cases s with
    | nil => simp [split?] at h
    | cons b s =>
      obtain ⟨⟨f, r⟩, hs, he⟩ := Option.map_eq_some_iff.1 (show (split? n s).map _ = _ from h)
      obtain ⟨rfl, rfl⟩ := Prod.mk.inj he
      obtain ⟨rfl, hl⟩ := ih hs
      simp [hl]

theorem split?_append (front rest : Bytes) :
    split? front.length (front ++ rest) = some (front, rest) := by
  induction front with
  | nil => rfl
  | cons b front ih => simp [split?, ih]

/-- What follows `front` at the start of a byte string. -/
def after? : Bytes → Bytes → Option Bytes
  | [], s => some s
  | _ :: _, [] => none
  | a :: front, b :: s => if a = b then after? front s else none

theorem after?_eq_some_iff {front s rest : Bytes} :
    after? front s = some rest ↔ s = front ++ rest := by
  induction front generalizing s with
  | nil => simp [after?]
  | cons a front ih =>
    cases s with
    | nil => simp [after?]
    | cons b s =>
      by_cases h : a = b
      · simp [after?, h, ih]
      · simp [after?, h, Ne.symm h]

/-- The value of a little-endian byte string. -/
def toNatLE : Bytes → Nat
  | [] => 0
  | b :: s => b.toNat + 256 * toNatLE s

/-- The value of a big-endian byte string. -/
def toNatBE (s : Bytes) : Nat := toNatLE s.reverse

/-- The low `width` bytes of a number, least significant first. -/
def ofNatLE : Nat → Nat → Bytes
  | 0, _ => []
  | width + 1, n => UInt8.ofNat n :: ofNatLE width (n / 256)

/-- The low `width` bytes of a number, most significant first. -/
def ofNatBE (width n : Nat) : Bytes := (ofNatLE width n).reverse

@[simp] theorem length_ofNatLE (width n : Nat) : (ofNatLE width n).length = width := by
  induction width generalizing n with
  | zero => rfl
  | succ width ih => simp [ofNatLE, ih]

@[simp] theorem length_ofNatBE (width n : Nat) : (ofNatBE width n).length = width := by
  simp [ofNatBE]

/-- The bytes of a number with no zero byte at the top; zero has none. -/
def ofNat (n : Nat) : Bytes :=
  if n = 0 then [] else UInt8.ofNat n :: ofNat (n / 256)
termination_by n

/-- The string without the zero bytes it starts with. -/
def dropZeros (s : Bytes) : Bytes := s.dropWhile (· == 0)

end Bytes

end CoinScript
