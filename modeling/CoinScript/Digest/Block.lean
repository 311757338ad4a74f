import CoinScript.Bytes

/-! # Blocks of 32-bit words

The digests share one shape: the message is padded to whole 64-byte blocks that end in
its length in bits, each block is read as sixteen words, and a compression function
folds the blocks into a chaining state. They differ in byte order and compression.
-/
namespace CoinScript.Digest

def rotl (x n : UInt32) : UInt32 := (x <<< n) ||| (x >>> (32 - n))

def rotr (x n : UInt32) : UInt32 := (x >>> n) ||| (x <<< (32 - n))

inductive ByteOrder where
  | little
  | big
deriving DecidableEq, Repr

def ByteOrder.bytes : ByteOrder → Nat → Nat → Bytes
  | .little => Bytes.ofNatLE
  | .big => Bytes.ofNatBE

def ByteOrder.word : ByteOrder → UInt8 → UInt8 → UInt8 → UInt8 → UInt32
  | .little, a, b, c, d =>
    a.toUInt32 ||| (b.toUInt32 <<< 8) ||| (c.toUInt32 <<< 16) ||| (d.toUInt32 <<< 24)
  | .big, a, b, c, d =>
    d.toUInt32 ||| (c.toUInt32 <<< 8) ||| (b.toUInt32 <<< 16) ||| (a.toUInt32 <<< 24)

/-- Zero bytes between the end mark and the eight length bytes. -/
def zeroCount (length : Nat) : Nat := (119 - length % 64) % 64

def pad (order : ByteOrder) (message : Bytes) : Bytes :=
  message ++ 0x80 :: List.replicate (zeroCount message.length) 0
    ++ order.bytes 8 (8 * message.length)

def words (order : ByteOrder) : Bytes → List UInt32
  | a :: b :: c :: d :: rest => order.word a b c d :: words order rest
  | _ => []

def blocks (ws : List UInt32) : List (List UInt32) :=
  if ws = [] then [] else ws.take 16 :: blocks (ws.drop 16)
termination_by ws.length
decreasing_by
  have : ws.length ≠ 0 := by simpa using ‹¬ws = []›
  simp
  omega

/-- The chaining state after every block of the padded message. -/
def absorb {State : Type} (order : ByteOrder) (compress : State → List UInt32 → State)
    (start : State) (message : Bytes) : State :=
  (blocks (words order (pad order message))).foldl compress start

def ofWords (order : ByteOrder) (ws : List UInt32) : Bytes :=
  ws.flatMap fun w => order.bytes 4 w.toNat

@[simp] theorem length_ofWords (order : ByteOrder) (ws : List UInt32) :
    (ofWords order ws).length = 4 * ws.length := by
  induction ws with
  | nil => rfl
  | cons w ws ih =>
    cases order <;> simp_all [ofWords, ByteOrder.bytes] <;> omega

end CoinScript.Digest
