import CoinScript.Digest.Block

/-! # SHA-1 -/
namespace CoinScript.Digest.Sha1

structure State where
  a : UInt32
  b : UInt32
  c : UInt32
  d : UInt32
  e : UInt32

def start : State := ⟨0x67452301, 0xefcdab89, 0x98badcfe, 0x10325476, 0xc3d2e1f0⟩

/-- `count` further words of the message schedule, which is kept newest first. -/
def extend : Nat → List UInt32 → List UInt32
  | 0, ws => ws
  | count + 1, ws =>
    extend count
      (rotl (ws.getD 2 0 ^^^ ws.getD 7 0 ^^^ ws.getD 13 0 ^^^ ws.getD 15 0) 1 :: ws)

def schedule (block : List UInt32) : List UInt32 := (extend 64 block.reverse).reverse

/-- Twenty rounds share one mixing function and one constant. -/
structure Stage where
  mix : UInt32 → UInt32 → UInt32 → UInt32
  constant : UInt32

def choice : Stage := ⟨fun b c d => (b &&& c) ||| (~~~b &&& d), 0x5a827999⟩
def parity : Stage := ⟨fun b c d => b ^^^ c ^^^ d, 0x6ed9eba1⟩
def majority : Stage := ⟨fun b c d => (b &&& c) ||| (b &&& d) ||| (c &&& d), 0x8f1bbcdc⟩
def lastParity : Stage := ⟨fun b c d => b ^^^ c ^^^ d, 0xca62c1d6⟩

def Stage.round (stage : Stage) (s : State) (w : UInt32) : State :=
  ⟨rotl s.a 5 + stage.mix s.b s.c s.d + s.e + stage.constant + w, s.a, rotl s.b 30, s.c, s.d⟩

def compress (s : State) (block : List UInt32) : State :=
  let ws := schedule block
  let t := (ws.take 20).foldl choice.round s
  let t := ((ws.drop 20).take 20).foldl parity.round t
  let t := ((ws.drop 40).take 20).foldl majority.round t
  let t := (ws.drop 60).foldl lastParity.round t
  ⟨s.a + t.a, s.b + t.b, s.c + t.c, s.d + t.d, s.e + t.e⟩

def State.bytes (s : State) : Bytes := ofWords .big [s.a, s.b, s.c, s.d, s.e]

end Sha1

def sha1 (message : Bytes) : Bytes := (absorb .big Sha1.compress Sha1.start message).bytes

@[simp] theorem length_sha1 (message : Bytes) : (sha1 message).length = 20 := by
  simp [sha1, Sha1.State.bytes]

end CoinScript.Digest
