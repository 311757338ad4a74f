import CoinScript.Proofs.StackEffect
import Mathlib.Data.List.Basic

/-! # Rearrangements of the stack

Items are moved and copied in groups, and they are found by signed indices. A stack can also be
rearranged where it stands, as a row of items of which the last is the top: a group is then moved
item by item, each taken out at an index that stays the same while the row changes. What has been
moved stays moved when a later step fails. Still a rearrangement is made as a whole or not at all,
since no step fails once there are enough items.
-/
namespace CoinScript.Stack

/-- A change of a row of items, bottom first, made step by step. -/
abbrev InPlace := EStateM Fault (List Bytes)

/-- The number of items below a signed index, in a row of `size` items. -/
def position? (size : Nat) (index : Int) : Option Nat :=
  let position := if index < 0 then size + index else index
  if position < 0 ∨ size ≤ position then none else some position.toNat

namespace InPlace

def peek (index : Int) : InPlace Bytes := fun row =>
  match position? row.length index with
  | some position => .ok (row.getD position []) row
  | none => .error (.badIndex index row.length) row

def remove (index : Int) : InPlace Bytes := fun row =>
  match position? row.length index with
  | some position => .ok (row.getD position []) (row.eraseIdx position)
  | none => .error (.badIndex index row.length) row

/-- There is one place more for a new item than there are items. -/
def insert (index : Int) (item : Bytes) : InPlace Unit := fun row =>
  match position? (row.length + 1) index with
  | some position => .ok () (row.insertIdx position item)
  | none => .error (.badInsertIndex index row.length) row

def push (item : Bytes) : InPlace Unit := fun row => .ok () (row ++ [item])

/-- Copies `count` items onto the top, the lowest of which has `depth` items from it up. -/
def copy (depth count : Nat) : InPlace Unit := fun row =>
  .ok () (row ++ (row.drop (row.length - depth)).take count)

def needing (count : Nat) (fault : Fault) (change : InPlace Unit) : InPlace Unit := fun row =>
  if row.length < count then .error fault row else change row

/-- Moves `count` items to the top, one after the other, each from the same index. -/
def cycle (entry : Int) : Nat → InPlace Unit
  | 0 => return
  | count + 1 => do
    let item ← remove entry
    push item
    cycle entry count

end InPlace

/-- A rearrangement of the items on top. Groups have `n` items each. -/
inductive Move where
  | dup (n : Nat)
  | rot (n : Nat)
  | swap (n : Nat)
  | copyOver (n : Nat)
  | pick (n : Nat)
  | roll (n : Nat)
  | nip
  | tuck
deriving DecidableEq, Repr

namespace Move

def run : Move → Stack → Except Fault Stack
  | dup n, s => s.dup n
  | rot n, s => s.rot n
  | swap n, s => s.swap n
  | copyOver n, s => s.copyOver n
  | pick n, s => s.pick n
  | roll n, s => s.roll n
  | nip, s => s.nip
  | tuck, s => s.tuck

def inPlace : Move → InPlace Unit
  | dup n => InPlace.needing n (.shortDup n) (InPlace.copy n n)
  | rot n => InPlace.needing (3 * n) (.shortRot (3 * n)) (InPlace.cycle (-(3 * n : Nat)) n)
  | swap n => InPlace.needing (2 * n) (.shortSwap (2 * n)) (InPlace.cycle (-(2 * n : Nat)) n)
  | copyOver n => InPlace.needing (2 * n) (.shortOver (2 * n)) (InPlace.copy (2 * n) n)
  | pick n => do
    let item ← InPlace.peek (-n - 1)
    InPlace.push item
  | roll n => do
    let item ← InPlace.remove (-n - 1)
    InPlace.push item
  | nip => do
    let _ ← InPlace.remove (-2)
  | tuck => do
    let top ← InPlace.peek (-1)
    InPlace.insert (-3) top

def need : Move → Nat
  | dup n => n
  | rot n => 3 * n
  | swap n | copyOver n => 2 * n
  | pick n | roll n => n + 1
  | nip | tuck => 2

/-- What becomes of the items on top, bottom first. -/
inductive Rearranges : Move → List Bytes → List Bytes → Prop
  | dup {n : Nat} {a : List Bytes} : a.length = n → Rearranges (.dup n) a (a ++ a)
  | rot {n : Nat} {a b c : List Bytes} : a.length = n → b.length = n → c.length = n →
    Rearranges (.rot n) (a ++ b ++ c) (b ++ c ++ a)
  | swap {n : Nat} {a b : List Bytes} : a.length = n → b.length = n →
    Rearranges (.swap n) (a ++ b) (b ++ a)
  | copyOver {n : Nat} {a b : List Bytes} : a.length = n → b.length = n →
    Rearranges (.copyOver n) (a ++ b) (a ++ b ++ a)
  | pick {n : Nat} {v : Bytes} {above : List Bytes} : above.length = n →
    Rearranges (.pick n) ([v] ++ above) ([v] ++ above ++ [v])
  | roll {n : Nat} {v : Bytes} {above : List Bytes} : above.length = n →
    Rearranges (.roll n) ([v] ++ above) (above ++ [v])
  | nip {u v : Bytes} : Rearranges .nip [u, v] [v]
  | tuck {u v : Bytes} : Rearranges .tuck [u, v] [v, u, v]

end Move

section Indices

/-- A signed index means the place between the items below and those above it, whether it counts
from the bottom or from the top. -/
def Finds (index : Int) (below above : List Bytes) : Prop :=
  index = below.length ∨ index = -(above.length : Int) - 1

variable {index : Int} {below above row : List Bytes} {item : Bytes}

theorem length_append_cons (below above : List Bytes) (item : Bytes) :
    (below ++ item :: above).length = below.length + above.length + 1 := by
  rw [List.length_append, List.length_cons, Nat.add_assoc]

theorem exists_finds (hlow : -(row.length + 1 : Int) ≤ index) (hhigh : index ≤ row.length) :
    ∃ below above, row = below ++ above ∧ Finds index below above := by
  by_cases hnegative : index < 0
  · refine ⟨row.take (row.length + 1 + index).toNat, row.drop (row.length + 1 + index).toNat,
      (List.take_append_drop _ row).symm, .inr ?_⟩
    rw [List.length_drop]
    omega
  · refine ⟨row.take index.toNat, row.drop index.toNat, (List.take_append_drop _ row).symm, .inl ?_⟩
    rw [List.length_take]
    omega

theorem Finds.depth? (h : Finds index below above) :
    depth? (below.length + above.length + 1) index = some above.length := by
  have hdepth : (if index < 0 then -index - 1
      else ((below.length + above.length + 1 : Nat) : Int) - 1 - index) = above.length := by
    obtain rfl | rfl := h
    · rw [if_neg (by omega)]
      omega
    · rw [if_pos (by omega)]
      omega
  unfold Stack.depth?
  simp only [hdepth]
  rw [if_pos (by omega), Int.toNat_natCast]

theorem Finds.position? (h : Finds index below above) :
    position? (below.length + above.length + 1) index = some below.length := by
  have hposition : (if index < 0 then ((below.length + above.length + 1 : Nat) : Int) + index
      else index) = below.length := by
    obtain rfl | rfl := h
    · rw [if_neg (by omega)]
    · rw [if_pos (by omega)]
      omega
  unfold Stack.position?
  simp only [hposition]
  rw [if_neg (by omega), Int.toNat_natCast]

theorem depth?_eq_none {size : Nat} (h : ¬(-(size : Int) ≤ index ∧ index < size)) :
    depth? size index = none := by
  unfold depth?
  dsimp only
  rw [if_neg (by split <;> omega)]

theorem position?_eq_none {size : Nat} (h : ¬(-(size : Int) ≤ index ∧ index < size)) :
    position? size index = none := by
  unfold position?
  dsimp only
  rw [if_pos (by split <;> omega)]

end Indices

section Access

variable {index : Int} {below above : List Bytes} {item : Bytes}

theorem insertIdx_length_append (front rest : List Bytes) (item : Bytes) :
    (front ++ rest).insertIdx front.length item = front ++ item :: rest := by
  induction front with
  | nil => rfl
  | cons first front ih => simp [ih]

theorem ofItems_append_cons (below above : List Bytes) (item : Bytes) :
    ofItems (below ++ item :: above) = above.reverse ++ item :: below.reverse := by
  simp [ofItems]

theorem Finds.depth?_ofItems (h : Finds index below above) (item : Bytes) :
    Stack.depth? (ofItems (below ++ item :: above)).length index = some above.reverse.length := by
  rw [ofItems, List.length_reverse, length_append_cons, h.depth?, List.length_reverse]

theorem Finds.peek (h : Finds index below above) :
    Stack.peek (ofItems (below ++ item :: above)) index = .ok item := by
  unfold Stack.peek
  rw [h.depth?_ofItems item, ofItems_append_cons]
  simp

theorem Finds.remove (h : Finds index below above) :
    Stack.remove (ofItems (below ++ item :: above)) index =
      .ok (item, ofItems (below ++ above)) := by
  unfold Stack.remove
  rw [h.depth?_ofItems item, ofItems_append_cons]
  simp [ofItems, List.eraseIdx_append_of_length_le]

theorem Finds.insert (h : Finds index below above) (item : Bytes) :
    Stack.insert (ofItems (below ++ above)) index item =
      .ok (ofItems (below ++ item :: above)) := by
  have hlength : (ofItems (below ++ above)).length = below.length + above.length := by
    rw [ofItems, List.length_reverse, List.length_append]
  have habove : some above.length = some above.reverse.length := by
    rw [List.length_reverse]
  unfold Stack.insert
  rw [hlength, h.depth?, habove, ofItems_append_cons, ofItems, List.reverse_append]
  simp only [insertIdx_length_append]

theorem Finds.peek_inPlace (h : Finds index below above) :
    (InPlace.peek index).run (below ++ item :: above) = .ok item (below ++ item :: above) := by
  dsimp only [InPlace.peek, EStateM.run]
  rw [length_append_cons, h.position?]
  simp

theorem Finds.remove_inPlace (h : Finds index below above) :
    (InPlace.remove index).run (below ++ item :: above) = .ok item (below ++ above) := by
  dsimp only [InPlace.remove, EStateM.run]
  rw [length_append_cons, h.position?]
  simp [List.eraseIdx_append_of_length_le]

theorem Finds.insert_inPlace (h : Finds index below above) (item : Bytes) :
    (InPlace.insert index item).run (below ++ above) = .ok () (below ++ item :: above) := by
  dsimp only [InPlace.insert, EStateM.run]
  rw [List.length_append, h.position?]
  simp only [insertIdx_length_append]

end Access

namespace InPlace

variable {α β : Type} {x : InPlace α} {f : α → InPlace β} {row row' : List Bytes}
  {count : Nat} {fault : Fault} {change : InPlace Unit}

theorem run_bind_of_ok {a : α} (h : x.run row = .ok a row') :
    (x >>= f).run row = (f a).run row' := by
  show EStateM.bind x f row = _
  unfold EStateM.bind
  rw [show x row = .ok a row' from h]
  rfl

theorem run_bind_of_error (h : x.run row = .error fault row') :
    (x >>= f).run row = .error fault row' := by
  show EStateM.bind x f row = _
  unfold EStateM.bind
  rw [show x row = .error fault row' from h]

theorem run_needing_of_le (h : count ≤ row.length) :
    (needing count fault change).run row = change.run row :=
  if_neg (Nat.not_lt.mpr h)

theorem run_needing_of_lt (h : row.length < count) :
    (needing count fault change).run row = .error fault row :=
  if_pos h

theorem run_push (item : Bytes) : (push item).run row = .ok () (row ++ [item]) := rfl

theorem run_copy (below a b : List Bytes) :
    (copy (a ++ b).length a.length).run (below ++ (a ++ b)) = .ok () (below ++ (a ++ b) ++ a) := by
  have hstart : (below ++ (a ++ b)).length - (a ++ b).length = below.length := by
    rw [List.length_append, Nat.add_sub_cancel]
  dsimp only [copy, EStateM.run]
  rw [hstart, List.drop_left, List.take_left]

/-- Moving a group item by item lays it on top of the items above it. -/
theorem run_cycle (below a b : List Bytes) :
    (cycle (-(a ++ b).length) a.length).run (below ++ (a ++ b)) = .ok () (below ++ (b ++ a)) := by
  -- Each step takes one item from the lower group to the upper one, so that the index of the
  -- lowest item of the two stays the same.
  induction a generalizing b with
  | nil =>
    rw [List.append_nil, List.nil_append]
    rfl
  | cons item a ih =>
    have hfinds : Finds (-(item :: a ++ b).length) below (a ++ b) := by
      right
      rw [List.cons_append, List.length_cons]
      omega
    have hremove : (remove (-(item :: a ++ b).length)).run (below ++ (item :: a ++ b)) =
        .ok item (below ++ (a ++ b)) := hfinds.remove_inPlace
    have hsize : (item :: a ++ b).length = (a ++ (b ++ [item])).length := by
      simp only [List.length_append, List.length_cons, List.length_nil]
      omega
    have hnext : below ++ (a ++ b) ++ [item] = below ++ (a ++ (b ++ [item])) := by
      simp only [List.append_assoc]
    show (remove _ >>= fun item => push item >>= fun _ => cycle _ _).run _ = _
    rw [run_bind_of_ok hremove, run_bind_of_ok (run_push item), hsize, hnext, ih (b ++ [item]),
      List.append_assoc, List.singleton_append]

end InPlace

section Moves

variable {below before after row : List Bytes} {move : Move} {n : Nat}

theorem Move.Rearranges.length_eq (h : Rearranges move before after) :
    before.length = move.need := by
  cases h <;> simp only [List.length_append, List.length_cons, List.length_nil, Move.need] <;> omega

theorem Move.Rearranges.inPlace_eq (h : Rearranges move before after) (below : List Bytes) :
    move.inPlace.run (below ++ before) = .ok () (below ++ after) := by
  have hroom : before.length ≤ (below ++ before).length := by
    rw [List.length_append]
    exact Nat.le_add_left ..
  have hneed := h.length_eq
  cases h with
  | dup hn =>
    subst hn
    refine (InPlace.run_needing_of_le hroom).trans ?_
    simpa using InPlace.run_copy below before []
  | @rot n a b c ha hb hc =>
    rw [hneed] at hroom
    refine (InPlace.run_needing_of_le hroom).trans ?_
    have hcycle := InPlace.run_cycle below a (b ++ c)
    rw [ha, ← List.append_assoc, hneed] at hcycle
    exact hcycle
  | @swap n a b ha hb =>
    rw [hneed] at hroom
    refine (InPlace.run_needing_of_le hroom).trans ?_
    have hcycle := InPlace.run_cycle below a b
    rw [ha, hneed] at hcycle
    exact hcycle
  | @copyOver n a b ha hb =>
    rw [hneed] at hroom
    refine (InPlace.run_needing_of_le hroom).trans ?_
    have hcopy := InPlace.run_copy below a b
    rw [ha, hneed, List.append_assoc] at hcopy
    exact hcopy
  | @pick n v above hn =>
    have hfinds : Finds (-n - 1) below above := .inr (by rw [hn])
    refine (InPlace.run_bind_of_ok hfinds.peek_inPlace).trans ?_
    rw [InPlace.run_push, List.append_assoc]
    rfl
  | @roll n v above hn =>
    have hfinds : Finds (-n - 1) below above := .inr (by rw [hn])
    refine (InPlace.run_bind_of_ok hfinds.remove_inPlace).trans ?_
    rw [InPlace.run_push, List.append_assoc]
  | @nip u v =>
    have hfinds : Finds (-2) below [v] := .inr rfl
    exact InPlace.run_bind_of_ok hfinds.remove_inPlace
  | @tuck u v =>
    have htop : Finds (-1) (below ++ [u]) [] := .inr rfl
    have hplace : Finds (-3) below [u, v] := .inr rfl
    have hrow : below ++ [u, v] = below ++ [u] ++ v :: [] := by
      rw [List.append_assoc, List.singleton_append]
    have hpeek : (InPlace.peek (-1)).run (below ++ [u, v]) = .ok v (below ++ [u, v]) := by
      rw [hrow]
      exact htop.peek_inPlace
    exact (InPlace.run_bind_of_ok hpeek).trans (hplace.insert_inPlace v)

theorem Move.Rearranges.run_eq (h : Rearranges move before after) (below : List Bytes) :
    move.run (ofItems (below ++ before)) = .ok (ofItems (below ++ after)) := by
  cases h with
  | @dup n _ hn =>
    refine dup_eq_ok_iff.mpr ⟨before.reverse, below.reverse, ?_, ?_, ?_⟩ <;> simp [ofItems, hn]
  | @rot n a b c ha hb hc =>
    refine rot_eq_ok_iff.mpr ⟨(b ++ c).reverse, a.reverse, below.reverse, ?_, ?_, ?_, ?_⟩ <;>
      simp [ofItems, ha, hb, hc]
    omega
  | @swap n a b ha hb =>
    refine swap_eq_ok_iff.mpr ⟨b.reverse, a.reverse, below.reverse, ?_, ?_, ?_, ?_⟩ <;>
      simp [ofItems, ha, hb]
  | @copyOver n a b ha hb =>
    refine copyOver_eq_ok_iff.mpr ⟨b.reverse, a.reverse, below.reverse, ?_, ?_, ?_, ?_⟩ <;>
      simp [ofItems, ha, hb]
  | @pick n v above hn =>
    refine pick_eq_ok_iff.mpr ⟨above.reverse, v, below.reverse, ?_, ?_, ?_⟩ <;> simp [ofItems, hn]
  | @roll n v above hn =>
    refine roll_eq_ok_iff.mpr ⟨above.reverse, v, below.reverse, ?_, ?_, ?_⟩ <;> simp [ofItems, hn]
  | @nip u v =>
    have hnip : Stack.nip (v :: u :: below.reverse) = .ok (v :: below.reverse) := nip_top ..
    simpa [ofItems, Move.run] using hnip
  | @tuck u v =>
    have htuck : Stack.tuck (v :: u :: below.reverse) = .ok (v :: u :: v :: below.reverse) :=
      tuck_top ..
    simpa [ofItems, Move.run] using htuck

theorem exists_split {xs : List Bytes} {i j : Nat} (h : xs.length = i + j) :
    ∃ a b, xs = a ++ b ∧ a.length = i ∧ b.length = j := by
  obtain ⟨a, b, rfl, ha⟩ := exists_group (s := xs) (n := i) (by omega)
  rw [List.length_append] at h
  exact ⟨a, b, rfl, ha, by omega⟩

theorem Move.exists_rearranges (h : move.need ≤ row.length) :
    ∃ below before after, row = below ++ before ∧ Rearranges move before after := by
  obtain ⟨below, before, rfl, -, hbefore⟩ := exists_split (Nat.sub_add_cancel h).symm
  suffices hafter : ∃ after, Rearranges move before after by
    obtain ⟨after, hafter⟩ := hafter
    exact ⟨below, before, after, rfl, hafter⟩
  cases move with
  | dup n => exact ⟨_, .dup hbefore⟩
  | rot n =>
    have hthree : 3 * n = n + (n + n) := by omega
    obtain ⟨a, upper, rfl, ha, hupper⟩ := exists_split (hbefore.trans hthree)
    obtain ⟨b, c, rfl, hb, hc⟩ := exists_split hupper
    rw [← List.append_assoc]
    exact ⟨_, .rot ha hb hc⟩
  | swap n =>
    obtain ⟨a, b, rfl, ha, hb⟩ := exists_split (hbefore.trans (Nat.two_mul n))
    exact ⟨_, .swap ha hb⟩
  | copyOver n =>
    obtain ⟨a, b, rfl, ha, hb⟩ := exists_split (hbefore.trans (Nat.two_mul n))
    exact ⟨_, .copyOver ha hb⟩
  | pick n =>
    obtain ⟨v, above, rfl⟩ := List.exists_of_length_succ before hbefore
    exact ⟨_, .pick (Nat.succ.inj hbefore)⟩
  | roll n =>
    obtain ⟨v, above, rfl⟩ := List.exists_of_length_succ before hbefore
    exact ⟨_, .roll (Nat.succ.inj hbefore)⟩
  | nip =>
    obtain ⟨u, v, rfl⟩ := List.length_eq_two.mp hbefore
    exact ⟨_, .nip⟩
  | tuck =>
    obtain ⟨u, v, rfl⟩ := List.length_eq_two.mp hbefore
    exact ⟨_, .tuck⟩

end Moves

section Refusals

/-- A change for which there are too few items. The stack and the row are as they were. -/
def Refused {α β : Type} (result : Except Fault α) (change : InPlace β) (row : List Bytes) : Prop :=
  ∃ fault, fault.code = .underflow ∧ result = .error fault ∧ change.run row = .error fault row

variable {row : List Bytes} {index : Int} {move : Move}

theorem peek_refused (h : ¬(-(row.length : Int) ≤ index ∧ index < row.length)) :
    Refused (peek (ofItems row) index) (InPlace.peek index) row := by
  refine ⟨.badIndex index row.length, rfl, ?_, ?_⟩
  · unfold peek
    rw [ofItems, List.length_reverse, depth?_eq_none h]
  · dsimp only [InPlace.peek, EStateM.run]
    rw [position?_eq_none h]

theorem remove_refused (h : ¬(-(row.length : Int) ≤ index ∧ index < row.length)) :
    Refused (remove (ofItems row) index) (InPlace.remove index) row := by
  refine ⟨.badIndex index row.length, rfl, ?_, ?_⟩
  · unfold remove
    rw [ofItems, List.length_reverse, depth?_eq_none h]
  · dsimp only [InPlace.remove, EStateM.run]
    rw [position?_eq_none h]

theorem insert_refused (item : Bytes)
    (h : ¬(-(row.length + 1 : Int) ≤ index ∧ index ≤ row.length)) :
    Refused (insert (ofItems row) index item) (InPlace.insert index item) row := by
  have hrange : ¬(-((row.length + 1 : Nat) : Int) ≤ index ∧ index < (row.length + 1 : Nat)) := by
    omega
  refine ⟨.badInsertIndex index row.length, rfl, ?_, ?_⟩
  · unfold insert
    rw [ofItems, List.length_reverse, depth?_eq_none hrange]
  · dsimp only [InPlace.insert, EStateM.run]
    rw [position?_eq_none hrange]

theorem Refused.bind {α β γ δ : Type} {x : Except Fault α} {y : InPlace β} (h : Refused x y row)
    (f : α → Except Fault γ) (g : β → InPlace δ) : Refused (x >>= f) (y >>= g) row := by
  obtain ⟨fault, hcode, hx, hy⟩ := h
  refine ⟨fault, hcode, ?_, InPlace.run_bind_of_error hy⟩
  rw [hx]
  rfl

theorem Move.refused (h : row.length < move.need) :
    Refused (move.run (ofItems row)) move.inPlace row := by
  have hlength : (ofItems row).length < move.need := by
    rw [ofItems, List.length_reverse]
    exact h
  cases move with
  | dup n => exact ⟨.shortDup n, rfl, if_pos hlength, InPlace.run_needing_of_lt h⟩
  | rot n => exact ⟨.shortRot (3 * n), rfl, if_pos hlength, InPlace.run_needing_of_lt h⟩
  | swap n => exact ⟨.shortSwap (2 * n), rfl, if_pos hlength, InPlace.run_needing_of_lt h⟩
  | copyOver n => exact ⟨.shortOver (2 * n), rfl, if_pos hlength, InPlace.run_needing_of_lt h⟩
  | pick n =>
    dsimp only [need] at h
    exact (peek_refused (by omega)).bind _ _
  | roll n =>
    dsimp only [need] at h
    exact (remove_refused (by omega)).bind _ _
  | nip =>
    dsimp only [need] at h
    exact (remove_refused (by omega)).bind _ _
  | tuck =>
    rcases row with _ | ⟨v, _ | ⟨u, row⟩⟩
    · exact (peek_refused (by decide)).bind _ _
    · -- A single item is found, but there is no place for its copy.
      have htop : Finds (-1) [] [] := .inr rfl
      have hpeek : peek (ofItems [v]) (-1) = .ok v := htop.peek
      have hpeekInPlace : (InPlace.peek (-1)).run [v] = .ok v [v] := htop.peek_inPlace
      have hrefused : Refused (insert (ofItems [v]) (-3) v) (InPlace.insert (-3) v) [v] :=
        insert_refused v (by simp)
      obtain ⟨fault, hcode, hinsert, hinPlace⟩ := hrefused
      refine ⟨fault, hcode, ?_, (InPlace.run_bind_of_ok hpeekInPlace).trans hinPlace⟩
      show (peek (ofItems [v]) (-1) >>= _) = _
      rw [hpeek]
      exact hinsert
    · dsimp only [need, List.length_cons] at h
      omega

end Refusals

/-- Stack operations on groups and at signed indices are the rearrangements that they are meant to
be, for groups of every size, also where they are made step by step on a row of items. Where the
items do not suffice or an index is out of range, a change is refused for underflow and nothing has
been changed. An item that can be put in is found at the same index and can be taken out again. -/
theorem rearrangements_whole_or_refused :
    (∀ (move : Move) (row : List Bytes),
      if move.need ≤ row.length then
        ∃ below before after, row = below ++ before ∧ move.Rearranges before after
      else Refused (move.run (ofItems row)) move.inPlace row) ∧
    (∀ (move : Move) (below before after : List Bytes), move.Rearranges before after →
      move.run (ofItems (below ++ before)) = .ok (ofItems (below ++ after)) ∧
      move.inPlace.run (below ++ before) = .ok () (below ++ after)) ∧
    (∀ (row : List Bytes) (index : Int) (item : Bytes),
      if -(row.length + 1 : Int) ≤ index ∧ index ≤ row.length then
        ∃ row', (insert (ofItems row) index item = .ok (ofItems row') ∧
            (InPlace.insert index item).run row = .ok () row') ∧
          (peek (ofItems row') index = .ok item ∧
            (InPlace.peek index).run row' = .ok item row') ∧
          remove (ofItems row') index = .ok (item, ofItems row) ∧
            (InPlace.remove index).run row' = .ok item row
      else Refused (insert (ofItems row) index item) (InPlace.insert index item) row) ∧
    ∀ (row : List Bytes) (index : Int), ¬(-(row.length : Int) ≤ index ∧ index < row.length) →
      Refused (peek (ofItems row) index) (InPlace.peek index) row ∧
      Refused (remove (ofItems row) index) (InPlace.remove index) row := by
  refine ⟨?_, ?_, ?_, ?_⟩
  · intro move row
    split
    · next hroom => exact Move.exists_rearranges hroom
    · next hshort => exact Move.refused (Nat.not_le.mp hshort)
  · intro move below before after h
    exact ⟨h.run_eq below, h.inPlace_eq below⟩
  · intro row index item
    split
    · next hrange =>
      obtain ⟨below, above, rfl, hfinds⟩ := exists_finds hrange.1 hrange.2
      exact ⟨below ++ item :: above, ⟨hfinds.insert item, hfinds.insert_inPlace item⟩,
        ⟨hfinds.peek, hfinds.peek_inPlace⟩, hfinds.remove, hfinds.remove_inPlace⟩
    · next hrange => exact insert_refused item hrange
  · intro row index hrange
    exact ⟨peek_refused hrange, remove_refused hrange⟩

/-- Two groups of two are exchanged above an item that stays, there is no third group to rotate,
and an item can be put in below all others. -/
theorem rearrangements_whole_or_refused_pairs :
    let row : List Bytes := [[0], [1], [2], [3], [4]]
    (Move.swap 2).inPlace.run row = .ok () [[0], [3], [4], [1], [2]] ∧
    Refused ((Move.rot 2).run (ofItems row)) (Move.rot 2).inPlace row ∧
    ∃ row', insert (ofItems row) (-6) [9] = .ok (ofItems row') ∧
      remove (ofItems row') (-6) = .ok ([9], ofItems row) := by
  intro row
  obtain ⟨hcover, hmove, hinsert, -⟩ := rearrangements_whole_or_refused
  refine ⟨?_, ?_, ?_⟩
  · exact (hmove _ [[0]] _ _ (.swap (a := [[1], [2]]) (b := [[3], [4]]) rfl rfl)).2
  · exact (if_neg (by decide)).mp (hcover (.rot 2) row)
  · obtain ⟨row', hput, -, htaken, -⟩ := (if_pos (by decide)).mp (hinsert row (-6) [9])
    exact ⟨row', hput.1, htaken⟩

end CoinScript.Stack
