import CoinScript.Curve
import Mathlib.FieldTheory.Finite.Basic
import Mathlib.NumberTheory.LucasPrimality
import Mathlib.Tactic.NormNum.Prime

/-! # Square roots in the field of the curve

The field order is a prime, which a chain of Lucas tests shows. So the one power that is tried for a
root is a root whenever there is any. Minus seven is not a cube, so no point has the ordinate zero,
and an abscissa of the curve belongs to an even and to an odd ordinate.
-/
namespace CoinScript.Curve

section Powers

theorem powMod_eq (modulus base exponent : Nat) :
    powMod modulus base exponent = base ^ exponent % modulus := by
  fun_induction powMod modulus base exponent with
  | case1 => rw [Nat.pow_zero]
  | case2 base exponent _ half hodd ih =>
    have hsplit : base ^ exponent = base * (base * base) ^ (exponent / 2) := by
      rw [← Nat.pow_two, ← Nat.pow_mul, ← Nat.pow_succ']
      congr 1
      omega
    rw [hsplit, show half = _ from ih, ← Nat.pow_mod, Nat.mul_mod_mod]
  | case3 base exponent _ half heven ih =>
    have hsplit : base ^ exponent = (base * base) ^ (exponent / 2) := by
      rw [← Nat.pow_two, ← Nat.pow_mul]
      congr 1
      omega
    rw [hsplit, show half = _ from ih, ← Nat.pow_mod]

theorem powMod_eq_one_iff {p : Nat} (hp : 2 ≤ p) (base exponent : Nat) :
    powMod p base exponent = 1 ↔ (base : ZMod p) ^ exponent = 1 := by
  have hone : ((1 : Nat) : ZMod p) = 1 := Nat.cast_one
  rw [powMod_eq, ← hone, ← Nat.cast_pow, ZMod.natCast_eq_natCast_iff',
    Nat.one_mod_eq_one.mpr (by omega)]

end Powers

section Primality

/-- The factors multiply to one less than `p`, which is the order of the base modulo `p`. -/
def lucasTest (p base : Nat) (factors : List Nat) : Bool :=
  2 ≤ p && factors.prod = p - 1 && powMod p base (p - 1) = 1 &&
    factors.all fun q => powMod p base ((p - 1) / q) ≠ 1

theorem prime_of_lucasTest {p : Nat} (base : Nat) (small large : List Nat)
    (hsmall : ∀ q ∈ small, q.Prime) (hlarge : ∀ q ∈ large, q.Prime)
    (h : lucasTest p base (small ++ large) = true) : p.Prime := by
  simp only [lucasTest, Bool.and_eq_true, decide_eq_true_eq, List.all_eq_true] at h
  obtain ⟨⟨⟨htwo, hprod⟩, hfull⟩, hpart⟩ := h
  have hprimes : ∀ q ∈ small ++ large, q.Prime := List.forall_mem_append.mpr ⟨hsmall, hlarge⟩
  apply lucas_primality p (base : ZMod p) ((powMod_eq_one_iff htwo _ _).mp hfull)
  intro q hq hdvd
  rw [← hprod] at hdvd
  obtain ⟨factor, hmem, hfactor⟩ := (Prime.dvd_prod_iff hq.prime).mp hdvd
  obtain rfl : q = factor := (Nat.prime_dvd_prime_iff_eq hq (hprimes factor hmem)).mp hfactor
  rw [Ne, ← powMod_eq_one_iff htwo]
  exact hpart q hmem

theorem fieldOrder_prime : fieldOrder.Prime := by
  -- Each large prime of the chain divides one less than a later one.
  have hfirst : Nat.Prime 173378833005251801 :=
    prime_of_lucasTest 6 [2, 2, 2, 5, 5, 2621, 24809, 13331831] []
      (by norm_num) (List.forall_mem_nil _) (by decide +kernel)
  have hsecond : Nat.Prime 22149492674086928081353 :=
    prime_of_lucasTest 5 [2, 2, 2, 3, 5323] [173378833005251801]
      (by norm_num) (List.forall_mem_singleton.mpr hfirst) (by decide +kernel)
  have hthird : Nat.Prime 132896956044521568488119 :=
    prime_of_lucasTest 6 [2, 3] [22149492674086928081353]
      (by norm_num) (List.forall_mem_singleton.mpr hsecond) (by decide +kernel)
  have hfourth : Nat.Prime 255515944373312847190720520512484175977 :=
    prime_of_lucasTest 3
      [2, 2, 2, 7, 7, 11, 1627, 2657, 4423, 41201, 96557, 7240687, 107590001] []
      (by norm_num) (List.forall_mem_nil _) (by decide +kernel)
  have hfifth : Nat.Prime
      205115282021455665897114700593932402728804164701536103180137503955397371 :=
    prime_of_lucasTest 10 [2, 3, 5, 29, 29, 31, 7723]
      [132896956044521568488119, 255515944373312847190720520512484175977]
      (by norm_num)
      (List.forall_mem_cons.mpr ⟨hthird, List.forall_mem_singleton.mpr hfourth⟩)
      (by decide +kernel)
  exact prime_of_lucasTest 3 [2, 3, 7, 13441]
    [205115282021455665897114700593932402728804164701536103180137503955397371]
    (by norm_num) (List.forall_mem_singleton.mpr hfifth) (by decide +kernel)

end Primality

section Roots

instance : Fact fieldOrder.Prime := ⟨fieldOrder_prime⟩

theorem natCast_eq_iff (a b : Nat) :
    (a : ZMod fieldOrder) = b ↔ a % fieldOrder = b % fieldOrder :=
  ZMod.natCast_eq_natCast_iff' a b fieldOrder

theorem exists_sqrt_iff (n : Nat) :
    (∃ root, sqrt? n = some root) ↔ ∃ y, y * y % fieldOrder = n % fieldOrder := by
  unfold sqrt?
  dsimp only
  split_ifs with hroot
  · exact iff_of_true ⟨_, rfl⟩ ⟨_, hroot⟩
  · refine iff_of_false (by simp) ?_
    rintro ⟨y, hy⟩
    apply hroot
    -- The order is 3 modulo 4, so the power that is tried squares to what it is taken of.
    have hexponent : 2 * ((fieldOrder + 1) / 4 * 2) = fieldOrder + 1 := by decide
    rw [← natCast_eq_iff, Nat.cast_mul] at hy
    rw [powMod_eq, ← Nat.mul_mod, ← natCast_eq_iff, Nat.cast_mul, Nat.cast_pow, ← hy]
    calc ((y : ZMod fieldOrder) * y) ^ ((fieldOrder + 1) / 4) * (y * y) ^ ((fieldOrder + 1) / 4)
        = (y : ZMod fieldOrder) ^ (2 * ((fieldOrder + 1) / 4 * 2)) := by
          rw [← pow_two, ← pow_two, ← pow_mul, ← pow_mul]
      _ = y * y := by rw [hexponent, pow_succ, ZMod.pow_card]

theorem sqrt?_lt {n root : Nat} (h : sqrt? n = some root) : root < fieldOrder := by
  unfold sqrt? at h
  dsimp only at h
  split_ifs at h
  cases h
  rw [powMod_eq]
  exact Nat.mod_lt _ (by decide)

theorem sqrt?_mul_self {n root : Nat} (h : sqrt? n = some root) :
    root * root % fieldOrder = n % fieldOrder := by
  unfold sqrt? at h
  dsimp only at h
  split_ifs at h with hroot
  cases h
  exact hroot

theorem eq_or_add_eq_fieldOrder {a b : Nat} (ha : a < fieldOrder) (hb : b < fieldOrder)
    (h : a * a % fieldOrder = b * b % fieldOrder) : a = b ∨ a + b = fieldOrder := by
  rw [← natCast_eq_iff, Nat.cast_mul, Nat.cast_mul, mul_self_eq_mul_self_iff] at h
  rcases h with hsame | hopposite
  · rw [natCast_eq_iff, Nat.mod_eq_of_lt ha, Nat.mod_eq_of_lt hb] at hsame
    exact .inl hsame
  · rw [eq_neg_iff_add_eq_zero, ← Nat.cast_add, ZMod.natCast_eq_zero_iff] at hopposite
    obtain ⟨k, hk⟩ := hopposite
    have hfew : k < 2 := by
      by_contra hmany
      have hle := Nat.mul_le_mul_left fieldOrder (Nat.not_lt.mp hmany)
      omega
    interval_cases k
    · omega
    · exact .inr (by omega)

end Roots

section Points

/-- The coordinates are in the field and meet the equation of the curve. -/
structure Point.OnCurve (point : Point) : Prop where
  x_lt : point.x < fieldOrder
  y_lt : point.y < fieldOrder
  equation : point.y ^ 2 ≡ point.x ^ 3 + 7 [MOD fieldOrder]

variable {point : Point} {x y : Nat} {odd : Bool}

theorem equationAt_eq (x : Nat) : equationAt x = (x ^ 3 + 7) % fieldOrder := by
  rw [equationAt, Nat.add_mod, Nat.mod_mul_mod, ← Nat.add_mod]
  congr 2
  ring

theorem equation_iff : y ^ 2 ≡ x ^ 3 + 7 [MOD fieldOrder] ↔
    y * y % fieldOrder = equationAt x % fieldOrder := by
  rw [equationAt_eq, Nat.mod_mod, Nat.pow_two]
  rfl

theorem point?_eq_some_iff :
    point? x y = some point ↔ point = ⟨x, y⟩ ∧ point.OnCurve := by
  have hreduced : equationAt x % fieldOrder = equationAt x := Nat.mod_mod _ _
  unfold point?
  split_ifs with h
  · obtain ⟨hx, hy, hequation⟩ := h
    rw [Option.some.injEq, eq_comm, iff_self_and]
    rintro rfl
    exact ⟨hx, hy, equation_iff.mpr (hequation.trans hreduced.symm)⟩
  · refine iff_of_false (by simp) ?_
    rintro ⟨rfl, hx, hy, hequation⟩
    exact h ⟨hx, hy, (equation_iff.mp hequation).trans hreduced⟩

theorem Point.OnCurve.y_ne_zero (h : point.OnCurve) : point.y ≠ 0 := by
  intro hy
  -- Minus seven would be a cube, and its power by a third of the order of the group one.
  have hcube : (point.x : ZMod fieldOrder) ^ 3 = (fieldOrder - 7 : Nat) := by
    have hequation := (natCast_eq_iff _ _).mpr h.equation
    rw [hy, Nat.cast_add, Nat.cast_pow, Nat.cast_pow] at hequation
    rw [Nat.cast_sub (by decide), ZMod.natCast_self]
    linear_combination -hequation
  have hpower : powMod fieldOrder (fieldOrder - 7) ((fieldOrder - 1) / 3) ≠ 1 := by decide +kernel
  apply hpower
  have hthird : 3 * ((fieldOrder - 1) / 3) = fieldOrder - 1 := by decide
  rw [powMod_eq_one_iff fieldOrder_prime.two_le, ← hcube, ← pow_mul, hthird]
  apply ZMod.pow_card_sub_one_eq_one
  intro hx
  have hseven : ((fieldOrder - 7 : Nat) : ZMod fieldOrder) ≠ (0 : Nat) := by
    rw [Ne, natCast_eq_iff]
    decide
  apply hseven
  rw [← hcube, hx, Nat.cast_zero]
  rfl

theorem Point.OnCurve.opposite (h : (Point.mk x y).OnCurve) :
    (Point.mk x (fieldOrder - y)).OnCurve where
  x_lt := h.x_lt
  y_lt := Nat.sub_lt (by decide) (Nat.pos_of_ne_zero h.y_ne_zero)
  equation := by
    have hequation := (natCast_eq_iff _ _).mpr h.equation
    apply (natCast_eq_iff _ _).mp
    rw [Nat.cast_pow] at hequation ⊢
    rw [Nat.cast_sub (Nat.le_of_lt h.y_lt), ZMod.natCast_self, zero_sub, neg_sq]
    exact hequation

theorem odd_opposite (h : y < fieldOrder) : ((fieldOrder - y) % 2 == 1) = !(y % 2 == 1) := by
  have hodd : fieldOrder % 2 = 1 := by decide
  rw [Bool.eq_not, Ne, Bool.eq_iff_iff, beq_iff_eq, beq_iff_eq]
  omega

theorem odd_opposite_of_ne (h : y < fieldOrder) (hne : (y % 2 == 1) ≠ odd) :
    ((fieldOrder - y) % 2 == 1) = odd := by
  rw [odd_opposite h]
  exact (Bool.eq_not.mpr hne.symm).symm

theorem lift?_eq_some_iff :
    lift? x odd = some point ↔ point.x = x ∧ point.OnCurve ∧ (point.y % 2 == 1) = odd := by
  unfold lift?
  constructor
  · intro h
    split_ifs at h with hx
    obtain ⟨root, hroot, rfl⟩ := Option.map_eq_some_iff.mp h
    have hlt := sqrt?_lt hroot
    have hcurve : (Point.mk x root).OnCurve :=
      ⟨hx, hlt, equation_iff.mpr (sqrt?_mul_self hroot)⟩
    refine ⟨rfl, ?_⟩
    dsimp only
    split_ifs with hparity
    · exact ⟨hcurve, hparity⟩
    · exact ⟨hcurve.opposite, odd_opposite_of_ne hlt hparity⟩
  · rintro ⟨rfl, hcurve, hparity⟩
    obtain ⟨root, hroot⟩ := (exists_sqrt_iff _).mpr ⟨point.y, equation_iff.mp hcurve.equation⟩
    have hlt := sqrt?_lt hroot
    have hsquare := (sqrt?_mul_self hroot).trans (equation_iff.mp hcurve.equation).symm
    rw [if_pos hcurve.x_lt, hroot, Option.map_some]
    rcases eq_or_add_eq_fieldOrder hlt hcurve.y_lt hsquare with rfl | hopposite
    · rw [if_pos hparity]
    · have hy : fieldOrder - root = point.y := by omega
      have hother : (root % 2 == 1) ≠ odd := by
        rw [← hparity, ← hy, odd_opposite hlt, ← Bool.eq_not, Bool.not_not]
      rw [if_neg hother, hy]

theorem Point.OnCurve.exists_parity (h : (Point.mk x y).OnCurve) (odd : Bool) :
    ∃ y, (Point.mk x y).OnCurve ∧ (y % 2 == 1) = odd := by
  by_cases hparity : (y % 2 == 1) = odd
  · exact ⟨y, h, hparity⟩
  · exact ⟨fieldOrder - y, h.opposite, odd_opposite_of_ne h.y_lt hparity⟩

end Points

end CoinScript.Curve
