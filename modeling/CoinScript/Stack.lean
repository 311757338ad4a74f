import CoinScript.Number
import CoinScript.Truth

/-! # Stacks

A stack is the list of its items, top first; `items` shows it bottom first, the way
stacks are written down. An index counts from the bottom when it is not negative and
from the top when it is: `-1` is the top item. An operation that finds too few items
fails and has no effect.
-/
namespace CoinScript

abbrev Stack := List Bytes

namespace Stack

def ofItems (items : List Bytes) : Stack := items.reverse

def items (s : Stack) : List Bytes := s.reverse

@[simp] theorem items_ofItems (xs : List Bytes) : items (ofItems xs) = xs := by
  simp [items, ofItems]

@[simp] theorem ofItems_items (s : Stack) : ofItems (items s) = s := by
  simp [items, ofItems]

/-- How far below the top the item at a signed index lies, in a stack of `size` items. -/
def depth? (size : Nat) (index : Int) : Option Nat :=
  let depth := if index < 0 then -index - 1 else size - 1 - index
  if 0 ≤ depth ∧ depth < size then some depth.toNat else none

def peek (s : Stack) (index : Int) : Except Fault Bytes :=
  match depth? s.length index with
  | some depth => .ok (s.getD depth [])
  | none => .error (.badIndex index s.length)

def getBool (s : Stack) (index : Int) : Except Fault Bool := do
  return (← s.peek index).isTrue

def getNum (s : Stack) (index : Int) (format : Number.Format) : Except Fault Int := do
  Number.read format (← s.peek index)

def push (s : Stack) (item : Bytes) : Stack := item :: s

def pushNum (s : Stack) (n : Int) : Stack := s.push (Number.encode n)

def pushBool (s : Stack) (b : Bool) : Stack := s.push (Bytes.ofBool b)

def pop : Stack → Except Fault (Bytes × Stack)
  | [] => .error .emptyPop
  | item :: s => .ok (item, s)

def popBool (s : Stack) : Except Fault (Bool × Stack) := do
  let (item, rest) ← s.pop
  return (item.isTrue, rest)

/-- Takes the top item for a number. The item is gone even if it is none. -/
def popNum (s : Stack) (format : Number.Format) : Except Fault Int × Stack :=
  match s with
  | [] => (.error .emptyPop, [])
  | item :: rest => (Number.read format item, rest)

/-- Takes the top item, which has to be a number. -/
def takeNum (s : Stack) (format : Number.Format) : Except Fault (Int × Stack) :=
  match s.popNum format with
  | (.ok n, rest) => .ok (n, rest)
  | (.error fault, _) => .error fault

def dropTop (s : Stack) : Except Fault Stack := do
  let (_, rest) ← s.pop
  return rest

/-- Replaces the item at a signed index. -/
def put (s : Stack) (index : Int) (item : Bytes) : Except Fault Stack :=
  match depth? s.length index with
  | some depth => .ok (s.set depth item)
  | none => .error (.badIndex index s.length)

/-- Takes out the item at a signed index. -/
def remove (s : Stack) (index : Int) : Except Fault (Bytes × Stack) :=
  match depth? s.length index with
  | some depth => .ok (s.getD depth [], s.eraseIdx depth)
  | none => .error (.badIndex index s.length)

/-- Puts an item in such that it is found at the signed index. -/
def insert (s : Stack) (index : Int) (item : Bytes) : Except Fault Stack :=
  match depth? (s.length + 1) index with
  | some depth => .ok (s.insertIdx depth item)
  | none => .error (.badInsertIndex index s.length)

/-- Exchanges the items at two signed indices. -/
def exchange (s : Stack) (i j : Int) : Except Fault Stack := do
  let a ← s.peek i
  let b ← s.peek j
  let t ← s.put i b
  t.put j a

/-- Removes the item below the top. -/
def nip (s : Stack) : Except Fault Stack := do
  let (_, t) ← s.remove (-2)
  return t

/-- Copies the top item below the second one. -/
def tuck (s : Stack) : Except Fault Stack := do
  let top ← s.peek (-1)
  s.insert (-3) top

/-- Copies the item `n` below the top onto the top. -/
def pick (s : Stack) (n : Nat) : Except Fault Stack := do
  let item ← s.peek (-n - 1)
  return s.push item

/-- Moves the item `n` below the top onto the top. -/
def roll (s : Stack) (n : Nat) : Except Fault Stack := do
  let (item, t) ← s.remove (-n - 1)
  return t.push item

/-- Copies the top `n` items onto the top. -/
def dup (s : Stack) (n : Nat) : Except Fault Stack :=
  if s.length < n then .error (.shortDup n) else .ok (s.take n ++ s)

/-- Moves the third group of `n` items onto the top. -/
def rot (s : Stack) (n : Nat) : Except Fault Stack :=
  if s.length < 3 * n then .error (.shortRot (3 * n))
  else .ok ((s.drop (2 * n)).take n ++ s.take (2 * n) ++ s.drop (3 * n))

/-- Exchanges the top two groups of `n` items. -/
def swap (s : Stack) (n : Nat) : Except Fault Stack :=
  if s.length < 2 * n then .error (.shortSwap (2 * n))
  else .ok ((s.drop n).take n ++ s.take n ++ s.drop (2 * n))

/-- Copies the second group of `n` items onto the top. -/
def copyOver (s : Stack) (n : Nat) : Except Fault Stack :=
  if s.length < 2 * n then .error (.shortOver (2 * n))
  else .ok ((s.drop n).take n ++ s)

/-- Keeps the lowest `size` items. -/
def truncate (s : Stack) (size : Nat) : Stack := s.drop (s.length - size)

/-- Whether there is a top item and it is true. -/
def topIsTrue (s : Stack) : Bool :=
  match s with
  | [] => false
  | top :: _ => top.isTrue

end Stack

end CoinScript
