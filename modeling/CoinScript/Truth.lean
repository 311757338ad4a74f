import CoinScript.Bytes

/-! # Truth of a stack item

An item is false when all its bytes are zero, where a last byte of `0x80` counts as
zero too: it is the negative zero.
-/
namespace CoinScript.Bytes

def isTrue : Bytes → Bool
  | [] => false
  | [top] => top ≠ 0 && top ≠ 0x80
  | b :: rest => b ≠ 0 || isTrue rest

def ofBool (b : Bool) : Bytes := if b then [1] else []

@[simp] theorem isTrue_ofBool (b : Bool) : isTrue (ofBool b) = b := by
  cases b <;> rfl

end CoinScript.Bytes
