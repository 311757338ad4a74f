import CoinScript.Bytes

/-! # Wire format

A reader takes values off the front of its input. It hands back the rest of the input
even when it fails: a read that fails leaves the input as it is, and a compound read
keeps what its earlier parts consumed. Integers are little-endian; lengths and counts
use the variable-length form of one, three, five or nine bytes.
-/
namespace CoinScript

def Reader (ε α : Type) := Bytes → Except ε α × Bytes

namespace Reader

variable {ε ε' α β : Type}

def run (r : Reader ε α) (input : Bytes) : Except ε α × Bytes := r input

def ok (a : α) : Reader ε α := fun input => (.ok a, input)

def fail (e : ε) : Reader ε α := fun input => (.error e, input)

def andThen (r : Reader ε α) (next : α → Reader ε β) : Reader ε β := fun input =>
  match r input with
  | (.ok a, rest) => next a rest
  | (.error e, rest) => (.error e, rest)

instance : Monad (Reader ε) where
  pure := ok
  bind := andThen

def mapError (f : ε → ε') (r : Reader ε α) : Reader ε' α := fun input =>
  match r input with
  | (.ok a, rest) => (.ok a, rest)
  | (.error e, rest) => (.error (f e), rest)

/-- How many bytes are left. -/
def remaining : Reader ε Nat := fun input => (.ok input.length, input)

def ofExcept : Except ε α → Reader ε α
  | .ok a => ok a
  | .error e => fail e

/-- A reader that never leaves more input than it was given. -/
def Shrinks (r : Reader ε α) : Prop := ∀ input, (r input).2.length ≤ input.length

theorem Shrinks.ok (a : α) : Shrinks (Reader.ok a : Reader ε α) := fun _ => Nat.le_refl _

theorem Shrinks.bind {r : Reader ε α} {next : α → Reader ε β} (hr : Shrinks r)
    (hnext : ∀ a, Shrinks (next a)) : Shrinks (r >>= next) := by
  intro input
  have h := hr input
  show (andThen r next input).2.length ≤ input.length
  unfold andThen
  split
  · rename_i a rest heq
    exact Nat.le_trans (hnext a rest) (by simpa [heq] using h)
  · rename_i e rest heq
    simpa [heq] using h

theorem Shrinks.mapError {r : Reader ε α} (f : ε → ε') (hr : Shrinks r) :
    Shrinks (r.mapError f) := by
  intro input
  have h := hr input
  unfold Reader.mapError
  split <;> simp_all

/-- The same reader `count` times. -/
def times (r : Reader ε α) : Nat → Reader ε (List α)
  | 0 => ok []
  | count + 1 => do
    let a ← r
    let as ← times r count
    return a :: as

end Reader

namespace Wire

inductive Fault where
  | pastEnd
deriving DecidableEq, Repr

def Fault.message : Fault → String
  | .pastEnd => "read past end of buffer"

def take (n : Nat) : Reader Fault Bytes := fun input =>
  match Bytes.split? n input with
  | some (front, rest) => (.ok front, rest)
  | none => (.error .pastEnd, input)

theorem take_shrinks (n : Nat) : (take n).Shrinks := by
  intro input
  unfold take
  split
  · rename_i heq
    have := (Bytes.split?_eq_some heq).1
    simp [this]
  · simp

theorem take_append (front rest : Bytes) :
    take front.length (front ++ rest) = (.ok front, rest) := by
  simp [take, Bytes.split?_append]

/-- An unsigned little-endian integer. -/
def uint (width : Nat) : Reader Fault Nat := do
  let bytes ← take width
  return Bytes.toNatLE bytes

theorem uint_shrinks (width : Nat) : (uint width).Shrinks :=
  (take_shrinks width).bind fun _ => .ok _

def byte : Reader Fault UInt8
  | [] => (.error .pastEnd, [])
  | b :: rest => (.ok b, rest)

/-- The variable-length form. A value has one shortest form, but longer forms are read too. -/
def varInt : Reader Fault Nat := do
  let first ← byte
  if first = 0xff then uint 8
  else if first = 0xfe then uint 4
  else if first = 0xfd then uint 2
  else return first.toNat

/-- A length and that many bytes. -/
def varBytes : Reader Fault Bytes := do
  let n ← varInt
  take n

end Wire

namespace VarInt

/-- The width of the shortest form. -/
def length (n : Nat) : Nat :=
  if n < 0xfd then 1 else if n ≤ 0xffff then 3 else if n ≤ 0xffffffff then 5 else 9

/-- The shortest form. -/
def encode (n : Nat) : Bytes :=
  if n < 0xfd then [UInt8.ofNat n]
  else if n ≤ 0xffff then 0xfd :: Bytes.ofNatLE 2 n
  else if n ≤ 0xffffffff then 0xfe :: Bytes.ofNatLE 4 n
  else 0xff :: Bytes.ofNatLE 8 n

theorem length_encode (n : Nat) : (encode n).length = length n := by
  unfold encode length
  split
  · rfl
  · split
    · simp
    · split <;> simp

end VarInt

namespace Wire

def encodeVarBytes (bytes : Bytes) : Bytes := VarInt.encode bytes.length ++ bytes

/-- A value that is written on the wire. -/
inductive Field where
  | u8 (value : UInt8)
  | u16 (value : UInt16)
  | u32 (value : UInt32)
  | u64 (value : UInt64)
  | raw (bytes : Bytes)
  | varInt (value : UInt64)
  | varBytes (bytes : Bytes)
deriving DecidableEq, Repr

/-- What a reader has to know in order to read a field. -/
inductive Shape where
  | u8
  | u16
  | u32
  | u64
  | raw (length : Nat)
  | varInt
  | varBytes
deriving DecidableEq, Repr

def Field.shape : Field → Shape
  | .u8 _ => .u8
  | .u16 _ => .u16
  | .u32 _ => .u32
  | .u64 _ => .u64
  | .raw bytes => .raw bytes.length
  | .varInt _ => .varInt
  | .varBytes _ => .varBytes

def Field.encode : Field → Bytes
  | .u8 value => [value]
  | .u16 value => Bytes.ofNatLE 2 value.toNat
  | .u32 value => Bytes.ofNatLE 4 value.toNat
  | .u64 value => Bytes.ofNatLE 8 value.toNat
  | .raw bytes => bytes
  | .varInt value => VarInt.encode value.toNat
  | .varBytes bytes => encodeVarBytes bytes

def Shape.read : Shape → Reader Fault Field
  | .u8 => do return .u8 (← byte)
  | .u16 => do return .u16 (UInt16.ofNat (← uint 2))
  | .u32 => do return .u32 (UInt32.ofNat (← uint 4))
  | .u64 => do return .u64 (UInt64.ofNat (← uint 8))
  | .raw length => do return .raw (← take length)
  | .varInt => do return .varInt (UInt64.ofNat (← Wire.varInt))
  | .varBytes => do return .varBytes (← Wire.varBytes)

end Wire

end CoinScript
