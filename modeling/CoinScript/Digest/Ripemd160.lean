import CoinScript.Digest.Block

/-! # RIPEMD-160

Two lines of eighty rounds run over the same block, with their own word orders,
rotations and constants, and are added crosswise into the chaining state.
-/
namespace CoinScript.Digest.Ripemd160

structure State where
  a : UInt32
  b : UInt32
  c : UInt32
  d : UInt32
  e : UInt32

def start : State := ⟨0x67452301, 0xefcdab89, 0x98badcfe, 0x10325476, 0xc3d2e1f0⟩

abbrev Mix := UInt32 → UInt32 → UInt32 → UInt32

def mix1 : Mix := fun x y z => x ^^^ y ^^^ z
def mix2 : Mix := fun x y z => (x &&& y) ||| (~~~x &&& z)
def mix3 : Mix := fun x y z => (x ||| ~~~y) ^^^ z
def mix4 : Mix := fun x y z => (x &&& z) ||| (y &&& ~~~z)
def mix5 : Mix := fun x y z => x ^^^ (y ||| ~~~z)

/-- Sixteen rounds: a mixing function, a constant, and for each round the word it reads
and the amount it rotates by. -/
structure Stage where
  mix : Mix
  constant : UInt32
  picks : List (Nat × UInt32)

def leftLine : List Stage := [
  ⟨mix1, 0x00000000, [0, 1, 2, 3, 4, 5, 6, 7, 8, 9, 10, 11, 12, 13, 14, 15].zip
    [11, 14, 15, 12, 5, 8, 7, 9, 11, 13, 14, 15, 6, 7, 9, 8]⟩,
  ⟨mix2, 0x5a827999, [7, 4, 13, 1, 10, 6, 15, 3, 12, 0, 9, 5, 2, 14, 11, 8].zip
    [7, 6, 8, 13, 11, 9, 7, 15, 7, 12, 15, 9, 11, 7, 13, 12]⟩,
  ⟨mix3, 0x6ed9eba1, [3, 10, 14, 4, 9, 15, 8, 1, 2, 7, 0, 6, 13, 11, 5, 12].zip
    [11, 13, 6, 7, 14, 9, 13, 15, 14, 8, 13, 6, 5, 12, 7, 5]⟩,
  ⟨mix4, 0x8f1bbcdc, [1, 9, 11, 10, 0, 8, 12, 4, 13, 3, 7, 15, 14, 5, 6, 2].zip
    [11, 12, 14, 15, 14, 15, 9, 8, 9, 14, 5, 6, 8, 6, 5, 12]⟩,
  ⟨mix5, 0xa953fd4e, [4, 0, 5, 9, 7, 12, 2, 10, 14, 1, 3, 8, 11, 6, 15, 13].zip
    [9, 15, 5, 11, 6, 8, 13, 12, 5, 12, 13, 14, 11, 8, 5, 6]⟩]

def rightLine : List Stage := [
  ⟨mix5, 0x50a28be6, [5, 14, 7, 0, 9, 2, 11, 4, 13, 6, 15, 8, 1, 10, 3, 12].zip
    [8, 9, 9, 11, 13, 15, 15, 5, 7, 7, 8, 11, 14, 14, 12, 6]⟩,
  ⟨mix4, 0x5c4dd124, [6, 11, 3, 7, 0, 13, 5, 10, 14, 15, 8, 12, 4, 9, 1, 2].zip
    [9, 13, 15, 7, 12, 8, 9, 11, 7, 7, 12, 7, 6, 15, 13, 11]⟩,
  ⟨mix3, 0x6d703ef3, [15, 5, 1, 3, 7, 14, 6, 9, 11, 8, 12, 2, 10, 0, 4, 13].zip
    [9, 7, 15, 11, 8, 6, 6, 14, 12, 13, 5, 14, 13, 13, 7, 5]⟩,
  ⟨mix2, 0x7a6d76e9, [8, 6, 4, 1, 3, 11, 15, 0, 5, 12, 2, 13, 9, 7, 10, 14].zip
    [15, 5, 8, 11, 14, 14, 6, 14, 6, 9, 12, 9, 12, 5, 15, 8]⟩,
  ⟨mix1, 0x00000000, [12, 15, 10, 4, 1, 5, 8, 7, 6, 2, 13, 14, 0, 3, 9, 11].zip
    [8, 5, 12, 9, 12, 5, 14, 6, 8, 13, 6, 5, 15, 13, 11, 11]⟩]

def Stage.run (stage : Stage) (block : Array UInt32) (s : State) : State :=
  stage.picks.foldl (fun s (word, turn) =>
    let t := rotl (s.a + stage.mix s.b s.c s.d + block.getD word 0 + stage.constant) turn + s.e
    ⟨s.e, t, s.b, rotl s.c 10, s.d⟩) s

def runLine (line : List Stage) (block : Array UInt32) (s : State) : State :=
  line.foldl (fun s stage => stage.run block s) s

def compress (s : State) (block : List UInt32) : State :=
  let ws := block.toArray
  let l := runLine leftLine ws s
  let r := runLine rightLine ws s
  ⟨s.b + l.c + r.d, s.c + l.d + r.e, s.d + l.e + r.a, s.e + l.a + r.b, s.a + l.b + r.c⟩

def State.bytes (s : State) : Bytes := ofWords .little [s.a, s.b, s.c, s.d, s.e]

end Ripemd160

def ripemd160 (message : Bytes) : Bytes :=
  (absorb .little Ripemd160.compress Ripemd160.start message).bytes

@[simp] theorem length_ripemd160 (message : Bytes) : (ripemd160 message).length = 20 := by
  simp [ripemd160, Ripemd160.State.bytes]

end CoinScript.Digest
