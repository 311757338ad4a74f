import CoinScript.Operation.Number
import CoinScript.Operation.Stack
import CoinScript.Proofs.Outcome

/-! # What operations take and give

Apart from the one that pushes the height of the stack, an operation takes some items off the
top and puts others in their place, which depend on nothing but the items taken. So it acts on
every stack that starts with these items, and in the same way whatever is below.
-/
namespace CoinScript

namespace Stack

variable {s t rest : Stack} {item : Bytes} {n : Nat} {format : Number.Format}

section Access

theorem depth?_below (size n : Nat) :
    depth? size (-n - 1) = if n < size then some n else none := by
  have hnegative : (-(n : Int) - 1) < 0 := by omega
  have hdepth : -(-(n : Int) - 1) - 1 = n := by omega
  unfold depth?
  simp only [hnegative, ↓reduceIte, hdepth]
  by_cases hn : n < size
  · have hbounds : (0 : Int) ≤ n ∧ (n : Int) < size := by omega
    rw [if_pos hbounds, if_pos hn, Int.toNat_natCast]
  · have hbounds : ¬((0 : Int) ≤ n ∧ (n : Int) < size) := by omega
    rw [if_neg hbounds, if_neg hn]

theorem peek_below_eq_ok_iff : s.peek (-n - 1) = .ok item ↔ s[n]? = some item := by
  unfold peek
  rw [depth?_below, List.getElem?_eq_some_iff]
  by_cases hn : n < s.length
  · have hget : s.getD n [] = s[n] := by simp [hn]
    simp only [hn, ↓reduceIte, hget, Except.ok.injEq, exists_true_left]
  · simp [hn]

theorem remove_below_eq_ok_iff :
    s.remove (-n - 1) = .ok (item, t) ↔ s[n]? = some item ∧ t = s.eraseIdx n := by
  unfold remove
  rw [depth?_below, List.getElem?_eq_some_iff]
  by_cases hn : n < s.length
  · have hget : s.getD n [] = s[n] := by simp [hn]
    simp only [hn, ↓reduceIte, hget, Except.ok.injEq, Prod.mk.injEq, exists_true_left]
    rw [eq_comm (a := s.eraseIdx n)]
  · simp [hn]

theorem insert_below_eq_ok_iff :
    s.insert (-n - 1) item = .ok t ↔ n ≤ s.length ∧ t = s.insertIdx n item := by
  unfold insert
  rw [depth?_below]
  by_cases hn : n < s.length + 1
  · have hle : n ≤ s.length := by omega
    simp only [hn, ↓reduceIte, Except.ok.injEq, hle, true_and]
    exact eq_comm
  · have hle : ¬n ≤ s.length := by omega
    simp [hn, hle]

theorem peek_top_eq_ok_iff : s.peek (-1) = .ok item ↔ ∃ rest, s = item :: rest := by
  have hindex : (-1 : Int) = -((0 : Nat) : Int) - 1 := by decide
  rw [hindex, peek_below_eq_ok_iff]
  cases s <;> simp

theorem peek_top (item : Bytes) (rest : Stack) : peek (item :: rest) (-1) = .ok item :=
  peek_top_eq_ok_iff.mpr ⟨rest, rfl⟩

theorem remove_second (top below : Bytes) (rest : Stack) :
    remove (top :: below :: rest) (-2) = .ok (below, top :: rest) := by
  have hindex : (-2 : Int) = -((1 : Nat) : Int) - 1 := by decide
  rw [hindex, remove_below_eq_ok_iff]
  exact ⟨rfl, rfl⟩

theorem insert_third (top below : Bytes) (rest : Stack) (item : Bytes) :
    insert (top :: below :: rest) (-3) item = .ok (top :: below :: item :: rest) := by
  have hindex : (-3 : Int) = -((2 : Nat) : Int) - 1 := by decide
  rw [hindex, insert_below_eq_ok_iff]
  exact ⟨by simp, by simp⟩

theorem pop_eq_ok_iff : s.pop = .ok (item, rest) ↔ s = item :: rest := by
  cases s <;> simp [pop]

theorem takeNum_eq_ok_iff {value : Int} : s.takeNum format = .ok (value, rest) ↔
    ∃ item, s = item :: rest ∧ Number.read format item = .ok value := by
  cases s with
  | nil => simp [takeNum, popNum]
  | cons first below =>
    cases hread : Number.read format first with
    | error fault => simp [takeNum, popNum, hread]
    | ok read =>
      simp only [takeNum, popNum, hread, Except.ok.injEq, Prod.mk.injEq, List.cons.injEq]
      grind

theorem takeDepth_eq_ok_iff : s.takeDepth format = .ok (n, rest) ↔
    ∃ item value, s = item :: rest ∧ Number.read format item = .ok value ∧
      Number.clamp32 value = n ∧ n < rest.length := by
  unfold takeDepth
  rw [bind_eq_ok]
  constructor
  · rintro ⟨⟨value, below⟩, htake, h⟩
    obtain ⟨item, hs, hread⟩ := takeNum_eq_ok_iff.mp htake
    dsimp only at h
    split at h
    · cases h
    · next hbounds =>
      cases h
      exact ⟨item, value, hs, hread, by omega, by omega⟩
  · rintro ⟨item, value, hs, hread, hclamp, hn⟩
    refine ⟨(value, rest), takeNum_eq_ok_iff.mpr ⟨item, hs, hread⟩, ?_⟩
    dsimp only
    rw [hclamp, if_neg (by omega)]
    rfl

end Access

section Groups

/-- The top `n` items of a stack that has them. -/
theorem exists_group (h : n ≤ s.length) : ∃ group rest, s = group ++ rest ∧ group.length = n :=
  ⟨s.take n, s.drop n, (List.take_append_drop n s).symm, List.length_take_of_le h⟩

/-- The top `n` items and the `k` below them. -/
theorem exists_groups {k : Nat} (h : n + k ≤ s.length) : ∃ upper lower rest,
    s = upper ++ lower ++ rest ∧ upper.length = n ∧ lower.length = k := by
  obtain ⟨upper, below, rfl, hupper⟩ := exists_group (s := s) (n := n) (by omega)
  rw [List.length_append, hupper] at h
  obtain ⟨lower, rest, rfl, hlower⟩ := exists_group (Nat.le_of_add_le_add_left h)
  exact ⟨upper, lower, rest, (List.append_assoc ..).symm, hupper, hlower⟩

theorem dup_eq_ok_iff : s.dup n = .ok t ↔
    ∃ group rest, s = group ++ rest ∧ t = group ++ group ++ rest ∧ group.length = n := by
  unfold dup
  constructor
  · intro h
    split at h
    · cases h
    · next hn =>
      cases h
      obtain ⟨group, rest, rfl, hgroup⟩ := exists_group (Nat.not_lt.mp hn)
      exact ⟨group, rest, rfl, by simp [← hgroup], hgroup⟩
  · rintro ⟨group, rest, rfl, rfl, rfl⟩
    rw [if_neg (by simp)]
    simp

theorem copyOver_eq_ok_iff : s.copyOver n = .ok t ↔
    ∃ upper lower rest, s = upper ++ lower ++ rest ∧ t = lower ++ upper ++ lower ++ rest ∧
      upper.length = n ∧ lower.length = n := by
  unfold copyOver
  constructor
  · intro h
    split at h
    · cases h
    · next hn =>
      cases h
      obtain ⟨upper, lower, rest, rfl, hupper, hlower⟩ :=
        exists_groups (Nat.two_mul n ▸ Nat.not_lt.mp hn)
      exact ⟨upper, lower, rest, rfl, by simp [← hupper, hlower], hupper, hlower⟩
  · rintro ⟨upper, lower, rest, rfl, rfl, rfl, hlower⟩
    rw [if_neg (by simp only [List.length_append]; omega)]
    simp [hlower]

theorem groups_exchanged_iff {k : Nat} :
    n + k ≤ s.length ∧ t = (s.drop n).take k ++ s.take n ++ s.drop (n + k) ↔
      ∃ upper lower rest, s = upper ++ lower ++ rest ∧ t = lower ++ upper ++ rest ∧
        upper.length = n ∧ lower.length = k := by
  have hdrop (upper lower rest : Stack) :
      (upper ++ lower ++ rest).drop (upper.length + lower.length) = rest :=
    List.drop_left' (List.length_append ..)
  constructor
  · rintro ⟨h, rfl⟩
    obtain ⟨upper, lower, rest, rfl, rfl, rfl⟩ := exists_groups h
    refine ⟨upper, lower, rest, rfl, ?_, rfl, rfl⟩
    rw [hdrop]
    simp
  · rintro ⟨upper, lower, rest, rfl, rfl, rfl, rfl⟩
    rw [hdrop]
    simp

theorem swap_eq_ok_iff : s.swap n = .ok t ↔
    ∃ upper lower rest, s = upper ++ lower ++ rest ∧ t = lower ++ upper ++ rest ∧
      upper.length = n ∧ lower.length = n := by
  rw [← groups_exchanged_iff, ← Nat.two_mul]
  unfold swap
  grind

theorem rot_eq_ok_iff : s.rot n = .ok t ↔
    ∃ upper lower rest, s = upper ++ lower ++ rest ∧ t = lower ++ upper ++ rest ∧
      upper.length = 2 * n ∧ lower.length = n := by
  have hthree : 3 * n = 2 * n + n := by omega
  rw [← groups_exchanged_iff, ← hthree]
  unfold rot
  grind

theorem getElem?_eq_some_iff_split : s[n]? = some item ↔
    ∃ between rest, s = between ++ item :: rest ∧ between.length = n := by
  constructor
  · intro h
    obtain ⟨hn, hitem⟩ := List.getElem?_eq_some_iff.mp h
    refine ⟨s.take n, s.drop (n + 1), ?_, List.length_take_of_le (Nat.le_of_lt hn)⟩
    rw [← hitem, ← List.drop_eq_getElem_cons hn, List.take_append_drop]
  · rintro ⟨between, rest, rfl, rfl⟩
    simp

theorem pick_eq_ok_iff : s.pick n = .ok t ↔ ∃ between item rest,
    s = between ++ item :: rest ∧ between.length = n ∧ t = item :: s := by
  unfold pick
  rw [bind_eq_ok]
  simp only [peek_below_eq_ok_iff, getElem?_eq_some_iff_split]
  constructor
  · rintro ⟨item, ⟨between, rest, hs, hn⟩, h⟩
    cases h
    exact ⟨between, item, rest, hs, hn, rfl⟩
  · rintro ⟨between, item, rest, hs, hn, rfl⟩
    exact ⟨item, ⟨between, rest, hs, hn⟩, rfl⟩

theorem roll_eq_ok_iff : s.roll n = .ok t ↔ ∃ between item rest,
    s = between ++ item :: rest ∧ between.length = n ∧ t = item :: (between ++ rest) := by
  have herase (between rest : Stack) (item : Bytes) :
      (between ++ item :: rest).eraseIdx between.length = between ++ rest := by
    rw [List.eraseIdx_append_of_length_le (Nat.le_refl _), Nat.sub_self, List.eraseIdx_cons_zero]
  unfold roll
  rw [bind_eq_ok]
  constructor
  · rintro ⟨⟨item, u⟩, hremove, h⟩
    obtain ⟨hitem, rfl⟩ := remove_below_eq_ok_iff.mp hremove
    obtain ⟨between, rest, rfl, rfl⟩ := getElem?_eq_some_iff_split.mp hitem
    cases h
    exact ⟨between, item, rest, rfl, rfl, by rw [herase]; rfl⟩
  · rintro ⟨between, item, rest, rfl, rfl, rfl⟩
    refine ⟨(item, between ++ rest), remove_below_eq_ok_iff.mpr ⟨?_, (herase ..).symm⟩, rfl⟩
    exact getElem?_eq_some_iff_split.mpr ⟨between, rest, rfl, rfl⟩

end Groups

end Stack

section Effects

/-- What an operation takes off the top of the stack and what it gives, top first. -/
inductive StackOp.Effect (digests : Digests) : StackOp → List Bytes → List Bytes → Prop
  | verify {top} : top.isTrue = true → Effect digests .verify [top] []
  | drop {top} : Effect digests .drop [top] []
  | dropPair {top below} : Effect digests .dropPair [top, below] []
  | dup {n group} : group.length = n → Effect digests (.dup n) group (group ++ group)
  | copyOver {n upper lower} : upper.length = n → lower.length = n →
    Effect digests (.copyOver n) (upper ++ lower) (lower ++ upper ++ lower)
  | rot {n upper lower} : upper.length = 2 * n → lower.length = n →
    Effect digests (.rot n) (upper ++ lower) (lower ++ upper)
  | swap {n upper lower} : upper.length = n → lower.length = n →
    Effect digests (.swap n) (upper ++ lower) (lower ++ upper)
  | ifDup {top} : Effect digests .ifDup [top] (if top.isTrue then [top, top] else [top])
  | nip {top below} : Effect digests .nip [top, below] [top]
  | tuck {top below} : Effect digests .tuck [top, below] [top, below, top]
  | size {top} : Effect digests .size [top] [Number.encode top.length, top]
  | equal {top below} : Effect digests .equal [top, below] [Bytes.ofBool (top == below)]
  | equalVerify {top} : Effect digests .equalVerify [top, top] []
  | hash {op top} : Effect digests (.hash op) [top] [op.eval digests top]

/-- What a number operation takes, the last operand on top, and what it gives. -/
inductive NumberOp.Effect (format : Number.Format) : NumberOp → List Bytes → List Bytes → Prop
  | unary {op x a} : Number.read format x = .ok a →
    Effect format (.unary op) [x] [Number.encode (op.eval a)]
  | unaryTest {op x a} : Number.read format x = .ok a →
    Effect format (.unaryTest op) [x] [Bytes.ofBool (op.eval a)]
  | binary {op x y a b} : Number.read format x = .ok a → Number.read format y = .ok b →
    Effect format (.binary op) [y, x] [Number.encode (op.eval a b)]
  | binaryTest {op x y a b} : Number.read format x = .ok a → Number.read format y = .ok b →
    Effect format (.binaryTest op) [y, x] [Bytes.ofBool (op.eval a b)]
  | equalVerify {x y a} : Number.read format x = .ok a → Number.read format y = .ok a →
    Effect format .equalVerify [y, x] []
  | within {x lo hi a b c} : Number.read format x = .ok a → Number.read format lo = .ok b →
    Number.read format hi = .ok c →
    Effect format .within [hi, lo, x] [Bytes.ofBool (b ≤ a && a < c)]
  | pick {x a between item} : Number.read format x = .ok a →
    Number.clamp32 a = between.length →
    Effect format .pick (x :: (between ++ [item])) (item :: (between ++ [item]))
  | roll {x a between item} : Number.read format x = .ok a →
    Number.clamp32 a = between.length →
    Effect format .roll (x :: (between ++ [item])) (item :: between)

/-- An operation on stacks that is given by what it takes and gives. -/
def ActsBy (run : Stack → Except Fault Stack) (effect : List Bytes → List Bytes → Prop) : Prop :=
  ∀ s t, run s = .ok t ↔ ∃ taken given rest, effect taken given ∧
    s = taken ++ rest ∧ t = given ++ rest

section Tops

variable (top below : Bytes) (rest : Stack)

theorem Stack.nip_top : Stack.nip (top :: below :: rest) = .ok (top :: rest) := by
  simp only [nip, remove_second]
  rfl

theorem Stack.tuck_top : Stack.tuck (top :: below :: rest) = .ok (top :: below :: top :: rest) := by
  simp only [tuck, peek_top]
  exact insert_third top below rest top

end Tops

namespace StackOp

variable {digests : Digests} (top below : Bytes) (rest : Stack)

theorem run_verify :
    verify.run digests (top :: rest) = if top.isTrue then .ok rest else .error .verifyFailed := by
  simp only [run, Stack.getBool, Stack.peek_top]
  rfl

theorem run_ifDup : ifDup.run digests (top :: rest) =
    .ok ((if top.isTrue then [top, top] else [top]) ++ rest) := by
  simp only [run, Stack.peek_top]
  change Except.ok (if top.isTrue then top :: top :: rest else top :: rest) = _
  split <;> rfl

theorem run_size :
    size.run digests (top :: rest) = .ok (Number.encode top.length :: top :: rest) := by
  simp only [run, Stack.peek_top]
  rfl

theorem run_equalVerify : equalVerify.run digests (top :: below :: rest) =
    if top = below then .ok rest else .error .equalVerifyFailed := by
  have hpop : popEqual (top :: below :: rest) = .ok (top == below, rest) := rfl
  simp only [run, hpop]
  by_cases h : top = below <;> simp [h, bind, Except.bind, pure, Except.pure]

end StackOp

theorem StackOp.exists_effect {digests : Digests} {op : StackOp} (hop : op ≠ .depth) {s t : Stack}
    (h : op.run digests s = .ok t) : ∃ taken given rest, op.Effect digests taken given ∧
      s = taken ++ rest ∧ t = given ++ rest := by
  cases op with
  | depth => exact absurd rfl hop
  | dup n =>
    obtain ⟨group, rest, rfl, rfl, hgroup⟩ := Stack.dup_eq_ok_iff.mp h
    exact ⟨group, _, rest, .dup hgroup, rfl, rfl⟩
  | copyOver n =>
    obtain ⟨upper, lower, rest, rfl, rfl, hupper, hlower⟩ := Stack.copyOver_eq_ok_iff.mp h
    exact ⟨_, _, rest, .copyOver hupper hlower, rfl, rfl⟩
  | rot n =>
    obtain ⟨upper, lower, rest, rfl, rfl, hupper, hlower⟩ := Stack.rot_eq_ok_iff.mp h
    exact ⟨_, _, rest, .rot hupper hlower, rfl, rfl⟩
  | swap n =>
    obtain ⟨upper, lower, rest, rfl, rfl, hupper, hlower⟩ := Stack.swap_eq_ok_iff.mp h
    exact ⟨_, _, rest, .swap hupper hlower, rfl, rfl⟩
  | verify =>
    match s with
    | [] => cases h
    | top :: rest =>
      rw [run_verify] at h
      split at h
      · next htrue =>
        cases h
        exact ⟨[top], [], _, .verify htrue, rfl, rfl⟩
      · cases h
  | drop =>
    match s with
    | [] => cases h
    | top :: rest =>
      cases h
      exact ⟨[top], [], _, .drop, rfl, rfl⟩
  | ifDup =>
    match s with
    | [] => cases h
    | top :: rest =>
      cases (run_ifDup top rest).symm.trans h
      exact ⟨[top], _, rest, .ifDup, rfl, rfl⟩
  | size =>
    match s with
    | [] => cases h
    | top :: rest =>
      cases (run_size top rest).symm.trans h
      exact ⟨[top], _, rest, .size, rfl, rfl⟩
  | hash op =>
    match s with
    | [] => cases h
    | top :: rest =>
      cases h
      exact ⟨[top], _, rest, .hash, rfl, rfl⟩
  | dropPair =>
    match s with
    | [] | [_] => cases h
    | top :: below :: rest =>
      cases h
      exact ⟨[top, below], [], _, .dropPair, rfl, rfl⟩
  | nip =>
    match s with
    | [] | [_] => cases h
    | top :: below :: rest =>
      cases (Stack.nip_top top below rest).symm.trans h
      exact ⟨[top, below], _, rest, .nip, rfl, rfl⟩
  | tuck =>
    match s with
    | [] | [_] => cases h
    | top :: below :: rest =>
      cases (Stack.tuck_top top below rest).symm.trans h
      exact ⟨[top, below], _, rest, .tuck, rfl, rfl⟩
  | equal =>
    match s with
    | [] | [_] => cases h
    | top :: below :: rest =>
      cases h
      exact ⟨[top, below], _, rest, .equal, rfl, rfl⟩
  | equalVerify =>
    match s with
    | [] | [_] => cases h
    | top :: below :: rest =>
      rw [run_equalVerify] at h
      split at h
      · next hsame =>
        cases h
        subst hsame
        exact ⟨[top, top], [], _, .equalVerify, rfl, rfl⟩
      · cases h

theorem StackOp.run_of_effect {digests : Digests} {op : StackOp} {taken given : List Bytes}
    (h : op.Effect digests taken given) (rest : Stack) :
    op.run digests (taken ++ rest) = .ok (given ++ rest) := by
  cases h with
  | dup hgroup => exact Stack.dup_eq_ok_iff.mpr ⟨_, rest, rfl, rfl, hgroup⟩
  | copyOver hupper hlower =>
    exact Stack.copyOver_eq_ok_iff.mpr ⟨_, _, rest, rfl, rfl, hupper, hlower⟩
  | rot hupper hlower => exact Stack.rot_eq_ok_iff.mpr ⟨_, _, rest, rfl, rfl, hupper, hlower⟩
  | swap hupper hlower => exact Stack.swap_eq_ok_iff.mpr ⟨_, _, rest, rfl, rfl, hupper, hlower⟩
  | verify htrue => exact (run_verify _ rest).trans (if_pos htrue)
  | drop | dropPair | equal | hash => rfl
  | ifDup => exact run_ifDup _ rest
  | nip => exact Stack.nip_top _ _ rest
  | tuck => exact Stack.tuck_top _ _ rest
  | size => exact run_size _ rest
  | equalVerify => exact (run_equalVerify _ _ rest).trans (if_pos rfl)

theorem StackOp.run_actsBy {digests : Digests} {op : StackOp} (hop : op ≠ .depth) :
    ActsBy (op.run digests) (op.Effect digests) := by
  intro s t
  constructor
  · exact exists_effect hop
  · rintro ⟨taken, given, rest, heffect, rfl, rfl⟩
    exact run_of_effect heffect rest

theorem NumberOp.exists_effect {format : Number.Format} {op : NumberOp} {s t : Stack}
    (h : op.run format s = .ok t) : ∃ taken given rest, op.Effect format taken given ∧
      s = taken ++ rest ∧ t = given ++ rest := by
  cases op with
  | unary op =>
    obtain ⟨⟨a, rest⟩, htop, h⟩ := bind_eq_ok.mp h
    cases h
    obtain ⟨x, rfl, hx⟩ := Stack.takeNum_eq_ok_iff.mp htop
    exact ⟨[x], _, rest, .unary hx, rfl, rfl⟩
  | unaryTest op =>
    obtain ⟨⟨a, rest⟩, htop, h⟩ := bind_eq_ok.mp h
    cases h
    obtain ⟨x, rfl, hx⟩ := Stack.takeNum_eq_ok_iff.mp htop
    exact ⟨[x], _, rest, .unaryTest hx, rfl, rfl⟩
  | binary op =>
    obtain ⟨⟨b, below⟩, htop, h⟩ := bind_eq_ok.mp h
    obtain ⟨⟨a, rest⟩, hnext, h⟩ := bind_eq_ok.mp h
    cases h
    obtain ⟨y, rfl, hy⟩ := Stack.takeNum_eq_ok_iff.mp htop
    obtain ⟨x, rfl, hx⟩ := Stack.takeNum_eq_ok_iff.mp hnext
    exact ⟨[y, x], _, rest, .binary hx hy, rfl, rfl⟩
  | binaryTest op =>
    obtain ⟨⟨b, below⟩, htop, h⟩ := bind_eq_ok.mp h
    obtain ⟨⟨a, rest⟩, hnext, h⟩ := bind_eq_ok.mp h
    cases h
    obtain ⟨y, rfl, hy⟩ := Stack.takeNum_eq_ok_iff.mp htop
    obtain ⟨x, rfl, hx⟩ := Stack.takeNum_eq_ok_iff.mp hnext
    exact ⟨[y, x], _, rest, .binaryTest hx hy, rfl, rfl⟩
  | equalVerify =>
    obtain ⟨⟨b, below⟩, htop, h⟩ := bind_eq_ok.mp h
    obtain ⟨⟨a, rest⟩, hnext, h⟩ := bind_eq_ok.mp h
    dsimp only at h
    split at h
    · next hsame =>
      cases h
      obtain ⟨y, rfl, hy⟩ := Stack.takeNum_eq_ok_iff.mp htop
      obtain ⟨x, rfl, hx⟩ := Stack.takeNum_eq_ok_iff.mp hnext
      exact ⟨[y, x], [], _, .equalVerify hx (hsame ▸ hy), rfl, rfl⟩
    · cases h
  | within =>
    obtain ⟨⟨c, below⟩, htop, h⟩ := bind_eq_ok.mp h
    obtain ⟨⟨b, below'⟩, hnext, h⟩ := bind_eq_ok.mp h
    obtain ⟨⟨a, rest⟩, hlast, h⟩ := bind_eq_ok.mp h
    cases h
    obtain ⟨hi, rfl, hhi⟩ := Stack.takeNum_eq_ok_iff.mp htop
    obtain ⟨lo, rfl, hlo⟩ := Stack.takeNum_eq_ok_iff.mp hnext
    obtain ⟨x, rfl, hx⟩ := Stack.takeNum_eq_ok_iff.mp hlast
    exact ⟨[hi, lo, x], _, rest, .within hx hlo hhi, rfl, rfl⟩
  | pick =>
    obtain ⟨⟨n, below⟩, htop, h⟩ := bind_eq_ok.mp h
    obtain ⟨x, a, hs, hx, hclamp, -⟩ := Stack.takeDepth_eq_ok_iff.mp htop
    obtain ⟨between, item, rest, hbelow, hn, ht⟩ := Stack.pick_eq_ok_iff.mp h
    subst hbelow hn
    refine ⟨x :: (between ++ [item]), item :: (between ++ [item]), rest, .pick hx hclamp, ?_, ?_⟩
    · simp [hs]
    · simp [ht]
  | roll =>
    obtain ⟨⟨n, below⟩, htop, h⟩ := bind_eq_ok.mp h
    obtain ⟨x, a, hs, hx, hclamp, -⟩ := Stack.takeDepth_eq_ok_iff.mp htop
    obtain ⟨between, item, rest, hbelow, hn, ht⟩ := Stack.roll_eq_ok_iff.mp h
    subst hbelow hn
    refine ⟨x :: (between ++ [item]), item :: between, rest, .roll hx hclamp, ?_, ?_⟩
    · simp [hs]
    · simp [ht]

theorem NumberOp.run_of_effect {format : Number.Format} {op : NumberOp} {taken given : List Bytes}
    (h : op.Effect format taken given) (rest : Stack) :
    op.run format (taken ++ rest) = .ok (given ++ rest) := by
  have htake {x : Bytes} {a : Int} (hx : Number.read format x = .ok a) (below : Stack) :
      Stack.takeNum (x :: below) format = .ok (a, below) :=
    Stack.takeNum_eq_ok_iff.mpr ⟨x, rfl, hx⟩
  have hdepth {x : Bytes} {a : Int} {between : List Bytes} {item : Bytes}
      (hx : Number.read format x = .ok a) (hclamp : Number.clamp32 a = between.length) :
      Stack.takeDepth (x :: (between ++ item :: rest)) format =
        .ok (between.length, between ++ item :: rest) :=
    Stack.takeDepth_eq_ok_iff.mpr ⟨x, a, rfl, hx, hclamp, by simp⟩
  cases h with
  | unary hx => exact bind_eq_ok.mpr ⟨_, htake hx rest, rfl⟩
  | unaryTest hx => exact bind_eq_ok.mpr ⟨_, htake hx rest, rfl⟩
  | binary hx hy | binaryTest hx hy =>
    exact bind_eq_ok.mpr ⟨_, htake hy _, bind_eq_ok.mpr ⟨_, htake hx rest, rfl⟩⟩
  | equalVerify hx hy =>
    exact bind_eq_ok.mpr ⟨_, htake hy _, bind_eq_ok.mpr ⟨_, htake hx rest, if_pos rfl⟩⟩
  | within hx hlo hhi =>
    refine bind_eq_ok.mpr ⟨_, htake hhi _, bind_eq_ok.mpr ⟨_, htake hlo _, ?_⟩⟩
    exact bind_eq_ok.mpr ⟨_, htake hx rest, rfl⟩
  | pick hx hclamp =>
    simp only [List.cons_append, List.append_assoc, List.nil_append]
    refine bind_eq_ok.mpr ⟨_, hdepth hx hclamp, ?_⟩
    exact Stack.pick_eq_ok_iff.mpr ⟨_, _, rest, rfl, rfl, rfl⟩
  | roll hx hclamp =>
    simp only [List.cons_append, List.append_assoc, List.nil_append]
    refine bind_eq_ok.mpr ⟨_, hdepth hx hclamp, ?_⟩
    exact Stack.roll_eq_ok_iff.mpr ⟨_, _, rest, rfl, rfl, rfl⟩

theorem NumberOp.run_actsBy (format : Number.Format) (op : NumberOp) :
    ActsBy (op.run format) (op.Effect format) := by
  intro s t
  constructor
  · exact exists_effect
  · rintro ⟨taken, given, rest, heffect, rfl, rfl⟩
    exact run_of_effect heffect rest

end Effects

end CoinScript
