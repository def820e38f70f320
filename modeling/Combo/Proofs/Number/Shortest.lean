-- SUMMARY: The shortest numeral of a double: it lies in the interval of the double, so it reads back, and it is whole if the double is.
import Mathlib.Tactic.Positivity
import Combo.Number.Decimal
import Combo.Proofs.Number.Integer
import Combo.Proofs.Number.Quotient

/-!
# Shortest numerals

The numbers around a double that are nearer to it than to its neighbours read as that
double. The interval of the printer is made of them, and the search for a numeral in it
ends before its fuel does: eighteen digits below the leading one the grid is finer than
the interval.
-/

namespace Combo.Number

/-! ## Around a double -/

/-- Four times the lower end around a significand; the neighbour below a power of two is nearer. -/
def lowerEnd (m k : ℕ) : ℕ := if m = 2 ^ 52 ∧ k ≠ 0 then 4 * m - 1 else 4 * m - 2

/-- A number, in units, that reads as the double with this significand and exponent. -/
def IsAround (m k : ℕ) (q : ℚ) : Prop :=
  if m % 2 = 0 then (lowerEnd m k : ℚ) ≤ 4 * (q / 2 ^ k) ∧ 4 * (q / 2 ^ k) ≤ 4 * m + 2
  else (lowerEnd m k : ℚ) < 4 * (q / 2 ^ k) ∧ 4 * (q / 2 ^ k) < 4 * m + 2

theorem lowerEnd_cast {m : ℕ} (pos : 0 < m) (k : ℕ) :
    (lowerEnd m k : ℚ) = 4 * m - if m = 2 ^ 52 ∧ k ≠ 0 then 1 else 2 := by
  unfold lowerEnd
  split
  · rw [Nat.cast_sub (by omega)]
    push_cast
    rfl
  · rw [Nat.cast_sub (by omega)]
    push_cast
    rfl

/-- How far a number around a double can be from it. -/
theorem IsAround.bounds {m k : ℕ} {q : ℚ} (h : IsAround m k q) (pos : 0 < m) :
    (m : ℚ) - 1 / 2 ≤ q / 2 ^ k ∧ q / 2 ^ k ≤ m + 1 / 2 ∧
      (m = 2 ^ 52 ∧ k ≠ 0 → (m : ℚ) - 1 / 4 ≤ q / 2 ^ k) ∧
      (m % 2 = 1 → (m : ℚ) - 1 / 2 < q / 2 ^ k ∧ q / 2 ^ k < m + 1 / 2) := by
  rw [IsAround, lowerEnd_cast pos] at h
  generalize q / 2 ^ k = v at *
  by_cases even : m % 2 = 0
  · rw [if_pos even] at h
    by_cases special : m = 2 ^ 52 ∧ k ≠ 0
    · rw [if_pos special] at h
      exact ⟨by linarith, by linarith, fun _ => by linarith, fun odd => by omega⟩
    · rw [if_neg special] at h
      exact ⟨by linarith, by linarith, fun h => absurd h special, fun odd => by omega⟩
  · rw [if_neg even, if_neg (by omega)] at h
    exact ⟨by linarith, by linarith, fun h => absurd h.1 (by omega), fun _ => by constructor <;> linarith⟩

/-- What is around a double is nearest to its significand. -/
theorem IsAround.isNearestEven {m k : ℕ} {q : ℚ} (h : IsAround m k q) (pos : 0 < m) :
    IsNearestEven (q / 2 ^ k) m := by
  obtain ⟨low, high, -, odd⟩ := h.bounds pos
  refine ⟨abs_le.2 ⟨by linarith, by linarith⟩, fun tie => ?_⟩
  by_contra not_even
  obtain ⟨low', high'⟩ := odd (Nat.odd_iff.1 (Nat.not_even_iff_odd.1 not_even))
  exact absurd tie (abs_lt.2 ⟨by linarith, by linarith⟩).ne

/-- A number in units of a smaller power of two. -/
theorem div_two_pow (q : ℚ) (k d : ℕ) : q / 2 ^ k = q / 2 ^ (k + d) * 2 ^ d := by
  rw [pow_add, ← div_div, div_mul_cancel₀ _ (pow_ne_zero _ two_ne_zero)]

/-- Around a double, the nearest double is that one. -/
theorem IsAround.bits {m k bits : ℕ} {q : ℚ} (h : IsAround m k q) (pos : 0 < m) (narrow : m < 2 ^ 53)
    (normal : k = 0 ∨ 2 ^ 52 ≤ m) (bounded : k < 2046) (nearest : IsNearestDouble q bits) :
    bits = k * 2 ^ 52 + m := by
  have even := h.isNearestEven pos
  obtain ⟨low, high, corner, -⟩ := h.bounds pos
  obtain ⟨j, r, least, most, rounded, rfl⟩ := nearest
  have widest : (m : ℚ) + 1 ≤ 2 ^ 53 := by exact_mod_cast narrow
  rcases lt_trichotomy j k with below | rfl | above
  · -- a smaller exponent is that of the numbers just below a power of two
    have large : (2 : ℚ) ^ 52 ≤ m := by exact_mod_cast normal.resolve_left (by omega)
    have positive : (0 : ℚ) ≤ q / 2 ^ k := by linarith
    obtain ⟨d, rfl⟩ : ∃ d, k = j + (d + 1) := ⟨k - (j + 1), by omega⟩
    have scaled := div_two_pow q j (d + 1)
    generalize q / 2 ^ (j + (d + 1)) = v at *
    obtain rfl : d = 0 := by
      by_contra far
      have four : (2 : ℚ) ^ 2 ≤ 2 ^ (d + 1) := pow_le_pow_right₀ one_le_two (by omega)
      nlinarith
    have first : m = 2 ^ 52 := by
      by_contra larger
      have more : (2 : ℚ) ^ 52 + 1 ≤ m := by
        have strict : 2 ^ 52 + 1 ≤ m := by omega
        exact_mod_cast strict
      linarith
    have near := corner ⟨first, by omega⟩
    have full : IsNearestEven (q / 2 ^ j) (2 ^ 53 : ℕ) := by
      refine ⟨?_, fun _ => by decide⟩
      rw [first] at near
      push_cast at near ⊢
      exact abs_le.2 ⟨by linarith, by linarith⟩
    rw [rounded.unique full, first]
    exact (min_eq_right (by unfold infinityBits; omega)).trans (by omega)
  · rw [rounded.unique even]
    exact min_eq_right (by unfold infinityBits; omega)
  · -- a greater exponent is that of greater numbers
    have large := least.resolve_left (by omega)
    obtain ⟨d, rfl⟩ : ∃ d, j = k + (d + 1) := ⟨j - (k + 1), by omega⟩
    have scaled := div_two_pow q k (d + 1)
    have two : (2 : ℚ) ^ 1 ≤ 2 ^ (d + 1) := pow_le_pow_right₀ one_le_two (by omega)
    nlinarith

/-! ## The interval of the printer -/

/-- A power with an exponent of either sign, as the quotient of two natural powers. -/
theorem toNat_zpow {b : ℚ} (nonzero : b ≠ 0) (z : ℤ) : b ^ z.toNat / b ^ (-z).toNat = b ^ z := by
  rw [← zpow_natCast, ← zpow_natCast, ← zpow_sub₀ nonzero]
  congr 1
  omega

/-- The scale of the printer is a quarter of the least bit. -/
theorem scale_value (k : ℕ) : (2 : ℚ) ^ ((k : ℤ) - 1074 - 2).toNat /
    2 ^ (2 - ((k : ℤ) - 1074)).toNat = 2 ^ ((k : ℤ) - 1074) / 4 := by
  have power := toNat_zpow (b := 2) two_ne_zero ((k : ℤ) - 1074 - 2)
  rw [neg_sub] at power
  rw [power, zpow_sub₀ two_ne_zero]
  norm_num

/-- A quotient in quarters of the least bit of a double, over the denominator of the printer. -/
theorem quarters (k n : ℕ) {d : ℕ} (positive : 0 < d) :
    4 * ((n : ℚ) / d / unit / 2 ^ k) =
      ((n * Nat.pow 2 (2 - ((k : ℤ) - 1074)).toNat : ℕ) : ℚ) /
        (Nat.pow 2 ((k : ℤ) - 1074 - 2).toNat * d : ℕ) := by
  have quarter := scale_value k
  rw [two_zpow_sub] at quarter
  have nonzero : (d : ℚ) ≠ 0 := Nat.cast_ne_zero.2 positive.ne'
  have unit_ne := unit_pos.ne'
  have scale : (2 : ℚ) ^ (2 - ((k : ℤ) - 1074)).toNat ≠ 0 := pow_ne_zero _ two_ne_zero
  rw [div_eq_iff scale] at quarter
  simp only [Nat.pow_eq]
  push_cast
  rw [quarter]
  field_simp

/-- What the interval of the printer contains is around the double. -/
theorem contains_iff {m : ℕ} (k n : ℕ) {d : ℕ} (positive : 0 < d) :
    (Interval.around m ((k : ℤ) - 1074)).contains n d = true ↔
      IsAround m k ((n : ℚ) / d / unit) := by
  have special : (m = Nat.pow 2 52 ∧ (k : ℤ) - 1074 ≠ -1074) ↔ (m = 2 ^ 52 ∧ k ≠ 0) := by
    rw [Nat.pow_eq]
    omega
  have scale : (0 : ℚ) < (Nat.pow 2 ((k : ℤ) - 1074 - 2).toNat * d : ℕ) :=
    Nat.cast_pos.2 (Nat.mul_pos (Nat.two_pow_pos _) positive)
  have upper : (4 * (m : ℚ) + 2) = ((4 * m + 2 : ℕ) : ℚ) := by push_cast; rfl
  unfold IsAround Interval.contains Interval.around lowerEnd
  rw [quarters k n positive, upper]
  simp only [special, le_div_iff₀ scale, div_le_iff₀ scale, lt_div_iff₀ scale, div_lt_iff₀ scale,
    ← Nat.cast_mul, Nat.cast_le, Nat.cast_lt, Nat.mul_assoc]
  by_cases even : m % 2 = 0
  · simp [even]
  · simp [even]

/-! ## Grids -/

/-- A numeral that is found on a grid is on it, and in the interval. -/
theorem of_onGrid? {i : Interval} {power : ℤ} {x : Numeral} (h : i.onGrid? power = some x) :
    x.power = power ∧ 0 < x.digits ∧
      i.contains (x.digits * (powerOfTen power).1) (powerOfTen power).2 = true := by
  unfold Interval.onGrid? at h
  generalize powerOfTen power = grid at *
  obtain ⟨num, den⟩ := grid
  simp only at h ⊢
  generalize i.value * den / (i.denominator * num) = lower at h
  split at h
  · rename_i both
    rw [Bool.and_eq_true, Bool.and_eq_true, decide_eq_true_iff] at both
    obtain rfl := Option.some.inj h
    dsimp only
    split
    · exact ⟨rfl, Nat.succ_pos _, both.2⟩
    · exact ⟨rfl, both.1.1, both.1.2⟩
  · split at h
    · rename_i inLower
      rw [Bool.and_eq_true, decide_eq_true_iff] at inLower
      obtain rfl := Option.some.inj h
      exact ⟨rfl, inLower.1, inLower.2⟩
    · split at h
      · rename_i inUpper
        obtain rfl := Option.some.inj h
        exact ⟨rfl, Nat.succ_pos _, inUpper⟩
      · cases h

/-- Something is found on a grid that has a numeral in the lower half of the interval. -/
theorem isSome_onGrid? {i : Interval} {power : ℤ} {j : ℕ} (ordered : i.value < i.high)
    (spaced : 0 < i.denominator) (positive : 0 < j)
    (below : j * (powerOfTen power).1 * i.denominator ≤ i.value * (powerOfTen power).2)
    (contained : i.contains (j * (powerOfTen power).1) (powerOfTen power).2 = true) :
    (i.onGrid? power).isSome = true := by
  have positive_num : 0 < (powerOfTen power).1 := Nat.pow_pos (by decide)
  have positive_den : 0 < (powerOfTen power).2 := Nat.pow_pos (by decide)
  unfold Interval.onGrid?
  generalize powerOfTen power = grid at *
  obtain ⟨num, den⟩ := grid
  simp only at *
  have least : j ≤ i.value * den / (i.denominator * num) := by
    rw [Nat.le_div_iff_mul_le (Nat.mul_pos spaced positive_num)]
    calc j * (i.denominator * num) = j * num * i.denominator := by ring
      _ ≤ i.value * den := below
  have most : i.value * den / (i.denominator * num) * num * i.denominator ≤ i.value * den := by
    calc i.value * den / (i.denominator * num) * num * i.denominator
        = i.value * den / (i.denominator * num) * (i.denominator * num) := by ring
      _ ≤ i.value * den := Nat.div_mul_le_self _ _
  generalize i.value * den / (i.denominator * num) = lower at *
  have inLower : i.contains (lower * num) den = true := by
    have more : j * num * i.denominator ≤ lower * num * i.denominator := by gcongr
    have inside : i.value * den < i.high * den := Nat.mul_lt_mul_of_pos_right ordered positive_den
    unfold Interval.contains at *
    cases closed : i.closed with
    | true =>
        simp only [closed, if_true, Bool.and_eq_true, decide_eq_true_iff] at *
        omega
    | false =>
        simp only [closed, Bool.false_eq_true, if_false, Bool.and_eq_true, decide_eq_true_iff] at *
        omega
  have found : (decide (0 < lower) && i.contains (lower * num) den) = true := by
    rw [inLower, Bool.and_true, decide_eq_true_iff]
    omega
  rw [found]
  simp only [Bool.true_and, if_true]
  split <;> rfl

/-- The search goes down to a grid with a numeral, if the fuel lasts so far. -/
theorem firstOnGrid_spec {i : Interval} {goal : ℤ} (found : (i.onGrid? goal).isSome = true) (fuel : ℕ)
    (power : ℤ) (above : goal ≤ power) (near : power - goal < fuel) :
    ∃ p, goal ≤ p ∧ i.onGrid? p = some (i.firstOnGrid power fuel) := by
  induction fuel generalizing power with
  | zero => omega
  | succ fuel ih =>
      unfold Interval.firstOnGrid
      cases here : i.onGrid? power with
      | some x => exact ⟨power, above, here⟩
      | none =>
          have lower : goal ≠ power := by
            rintro rfl
            rw [here] at found
            cases found
          exact ih (power - 1) (by omega) (by omega)

/-! ## The search -/

/-- The number that a numeral stands for. -/
def Numeral.value (x : Numeral) : ℚ := x.digits * 10 ^ x.power

theorem grid_value (j : ℕ) (power : ℤ) :
    ((j * (powerOfTen power).1 : ℕ) : ℚ) / ((powerOfTen power).2 : ℕ) = j * 10 ^ power := by
  have powers := toNat_zpow (b := 10) (by norm_num) power
  rw [Nat.cast_mul, mul_div_assoc, ← powers]
  simp [powerOfTen]

/-- What is found around a double is a positive numeral around it. -/
theorem around_of_onGrid? {m k : ℕ} {power : ℤ} {x : Numeral}
    (h : (Interval.around m ((k : ℤ) - 1074)).onGrid? power = some x) :
    x.power = power ∧ 0 < x.digits ∧ IsAround m k (x.value / unit) := by
  obtain ⟨rfl, positive, contained⟩ := of_onGrid? h
  have spaced : 0 < (powerOfTen x.power).2 := Nat.pow_pos (by decide)
  rw [contains_iff k _ spaced, grid_value] at contained
  exact ⟨rfl, positive, contained⟩

/-- The number that a significand and an exponent stand for. -/
theorem around_value (m k : ℕ) : ((Interval.around m ((k : ℤ) - 1074)).value : ℚ) /
    (Interval.around m ((k : ℤ) - 1074)).denominator = m * 2 ^ ((k : ℤ) - 1074) := by
  have quarter := scale_value k
  simp only [Interval.around, Nat.pow_eq]
  push_cast
  rw [mul_div_assoc, quarter]
  ring

/-- What is no greater than a double, and nearer than a quarter of its least bit, is around it. -/
theorem isAround_of_near {m k : ℕ} (pos : 0 < m) {q : ℚ}
    (near : ((m : ℚ) - 1 / 4) * 2 ^ ((k : ℤ) - 1074) < q) (le : q ≤ m * 2 ^ ((k : ℤ) - 1074)) :
    IsAround m k (q / unit) := by
  have least : (0 : ℚ) < 2 ^ ((k : ℤ) - 1074) := zpow_pos two_pos _
  have scaled : q / unit / 2 ^ k = q / 2 ^ ((k : ℤ) - 1074) := by
    rw [two_zpow_sub, div_div, mul_comm]
  rw [← lt_div_iff₀ least] at near
  rw [← div_le_iff₀ least] at le
  have low : (lowerEnd m k : ℚ) ≤ 4 * m - 1 := by
    rw [lowerEnd_cast pos]
    split <;> linarith
  rw [IsAround, scaled]
  split <;> constructor <;> linarith

/-- A grid with a numeral that near is not passed over. -/
theorem isSome_of_near {m k j : ℕ} {power : ℤ} (pos : 0 < m)
    (near : ((m : ℚ) - 1 / 4) * 2 ^ ((k : ℤ) - 1074) < j * 10 ^ power)
    (le : j * 10 ^ power ≤ (m : ℚ) * 2 ^ ((k : ℤ) - 1074)) :
    ((Interval.around m ((k : ℤ) - 1074)).onGrid? power).isSome = true := by
  have least : (0 : ℚ) < 2 ^ ((k : ℤ) - 1074) := zpow_pos two_pos _
  have spaced : 0 < (powerOfTen power).2 := Nat.pow_pos (by decide)
  have spaced' : 0 < (Interval.around m ((k : ℤ) - 1074)).denominator := Nat.two_pow_pos _
  have one : (1 : ℚ) ≤ m := by exact_mod_cast pos
  refine isSome_onGrid? (j := j) ?_ spaced' ?_ ?_ ?_
  · exact Nat.mul_lt_mul_of_pos_right (by omega) (Nat.two_pow_pos _)
  · refine Nat.pos_of_ne_zero ?_
    rintro rfl
    rw [Nat.cast_zero, zero_mul] at near
    nlinarith
  · have quotients := le
    rw [← around_value, ← grid_value, div_le_div_iff₀ (by exact_mod_cast spaced)
      (by exact_mod_cast spaced')] at quotients
    exact_mod_cast quotients
  · rw [contains_iff k _ spaced, grid_value]
    exact isAround_of_near pos near le

/-- The leading power of a quotient is that of its leading digit, or one more. -/
theorem leadingPower_bounds {n d : ℕ} (pos : 0 < n) (pos' : 0 < d) :
    (10 : ℚ) ^ (leadingPower n d - 1) < n / d ∧ (n : ℚ) / d < 10 ^ (leadingPower n d + 1) := by
  obtain ⟨above, below, some⟩ := decimal_bounds n
  obtain ⟨above', below', some'⟩ := decimal_bounds d
  have below := below pos
  have below' := below' pos'
  unfold leadingPower
  generalize (decimal n).length = l at *
  generalize (decimal d).length = l' at *
  have positive : (0 : ℚ) < d := Nat.cast_pos.2 pos'
  have ten : (10 : ℚ) ≠ 0 := by norm_num
  rw [lt_div_iff₀ positive, div_lt_iff₀ positive]
  constructor
  · calc (10 : ℚ) ^ ((l : ℤ) - l' - 1) * d
        < 10 ^ ((l : ℤ) - l' - 1) * ((10 ^ l' : ℕ) : ℚ) :=
          mul_lt_mul_of_pos_left (by exact_mod_cast above') (zpow_pos (by norm_num) _)
      _ = ((10 ^ (l - 1) : ℕ) : ℚ) := by
          push_cast
          rw [← zpow_natCast, ← zpow_natCast, ← zpow_add₀ ten]
          congr 1
          omega
      _ ≤ n := by exact_mod_cast below
  · calc (n : ℚ) < ((10 ^ l : ℕ) : ℚ) := by exact_mod_cast above
      _ = 10 ^ ((l : ℤ) - l' + 1) * ((10 ^ (l' - 1) : ℕ) : ℚ) := by
          push_cast
          rw [← zpow_natCast, ← zpow_natCast, ← zpow_add₀ ten]
          congr 1
          omega
      _ ≤ 10 ^ ((l : ℤ) - l' + 1) * d :=
          mul_le_mul_of_nonneg_left (by exact_mod_cast below') (zpow_pos (by norm_num) _).le

/-- Eighteen digits below the leading one, the grid is finer than the interval. -/
theorem isSome_fine {m k : ℕ} (pos : 0 < m) (narrow : m < 2 ^ 53) {power : ℤ}
    (above : (10 : ℚ) ^ (power - 1) < m * 2 ^ ((k : ℤ) - 1074)) :
    ((Interval.around m ((k : ℤ) - 1074)).onGrid? (power - 18)).isSome = true := by
  have grid : (0 : ℚ) < 10 ^ (power - 18) := zpow_pos (by norm_num) _
  have spacing : (10 : ℚ) ^ (power - 1) = 10 ^ (power - 18) * 10 ^ 17 := by
    rw [← zpow_natCast, ← zpow_add₀ (by norm_num)]
    congr 1
    omega
  have short : (m : ℚ) < 2 ^ 53 := by exact_mod_cast narrow
  have least : (0 : ℚ) < 2 ^ ((k : ℤ) - 1074) := zpow_pos two_pos _
  generalize hw : (2 : ℚ) ^ ((k : ℤ) - 1074) = w at *
  have fine : (10 : ℚ) ^ (power - 18) ≤ w / 4 := by
    nlinarith
  have floor := Nat.floor_le (a := m * w / 10 ^ (power - 18)) (by positivity)
  have next := Nat.lt_floor_add_one (m * w / (10 : ℚ) ^ (power - 18))
  rw [le_div_iff₀ grid] at floor
  rw [div_lt_iff₀ grid] at next
  refine isSome_of_near (j := ⌊m * w / (10 : ℚ) ^ (power - 18)⌋₊) pos ?_ ?_
  · rw [hw]
    linarith
  · rw [hw]
    exact floor

/-- A whole number around a double with a fraction would be the double. -/
theorem exists_whole_of_around {m k n : ℕ} (pos : 0 < m) (around : IsAround m k (n / unit)) :
    ∃ n : ℕ, (m : ℚ) * 2 ^ ((k : ℤ) - 1074) = n := by
  rcases Nat.lt_or_ge k 1074 with small | large
  · obtain ⟨d, hd⟩ : ∃ d : ℕ, (k : ℤ) - 1074 = -d := ⟨1074 - k, by omega⟩
    have scaled : (n : ℚ) / unit / 2 ^ k = ((n * 2 ^ d : ℕ) : ℚ) := by
      have power := two_zpow_sub k
      rw [hd, zpow_neg, zpow_natCast] at power
      rw [div_div, mul_comm unit, ← power, div_inv_eq_mul]
      push_cast
      rfl
    obtain ⟨low, high, -⟩ := around.bounds pos
    rw [scaled] at low high
    -- two whole numbers that are at most a half apart
    have same : n * 2 ^ d = m := by
      have above : ((n * 2 ^ d : ℕ) : ℚ) < (m + 1 : ℕ) := by
        push_cast at high ⊢
        linarith
      have below : (m : ℚ) < (n * 2 ^ d + 1 : ℕ) := by
        push_cast at low ⊢
        linarith
      have above' := Nat.cast_lt.1 above
      have below' := Nat.cast_lt.1 below
      omega
    refine ⟨n, ?_⟩
    rw [hd, ← same, zpow_neg, zpow_natCast]
    push_cast
    exact mul_inv_cancel_right₀ (pow_ne_zero _ two_ne_zero) _
  · obtain ⟨d, hd⟩ : ∃ d : ℕ, (k : ℤ) - 1074 = d := ⟨k - 1074, by omega⟩
    refine ⟨m * 2 ^ d, ?_⟩
    rw [hd, zpow_natCast]
    push_cast
    rfl

/-- A whole double is itself on the grid of whole numbers. -/
theorem isSome_whole {m k n : ℕ} (pos : 0 < m) (whole : (m : ℚ) * 2 ^ ((k : ℤ) - 1074) = n) :
    ((Interval.around m ((k : ℤ) - 1074)).onGrid? 0).isSome = true := by
  have least : (0 : ℚ) < 2 ^ ((k : ℤ) - 1074) := zpow_pos two_pos _
  refine isSome_of_near (j := n) pos ?_ ?_
  · rw [zpow_zero, mul_one, ← whole]
    nlinarith
  · rw [zpow_zero, mul_one, whole]

/-- The search finds a numeral around a double, and a whole one exactly if the double is whole. -/
theorem shortest_spec {m k : ℕ} (pos : 0 < m) (narrow : m < 2 ^ 53) :
    0 < (shortest m ((k : ℤ) - 1074)).digits ∧
      IsAround m k ((shortest m ((k : ℤ) - 1074)).value / unit) ∧
      (0 ≤ (shortest m ((k : ℤ) - 1074)).power ↔ ∃ n : ℕ, (m : ℚ) * 2 ^ ((k : ℤ) - 1074) = n) := by
  have value := around_value m k
  have bounds := leadingPower_bounds (n := (Interval.around m ((k : ℤ) - 1074)).value)
    (d := (Interval.around m ((k : ℤ) - 1074)).denominator)
    (Nat.mul_pos (by omega) (Nat.two_pow_pos _)) (Nat.two_pow_pos _)
  rw [value] at bounds
  unfold shortest
  dsimp only
  generalize leadingPower (Interval.around m ((k : ℤ) - 1074)).value
    (Interval.around m ((k : ℤ) - 1074)).denominator = power at *
  have fine := isSome_fine pos narrow bounds.1
  obtain ⟨p, -, found⟩ := firstOnGrid_spec fine 20 power (by omega) (by omega)
  obtain ⟨rfl, positive, around⟩ := around_of_onGrid? found
  refine ⟨positive, around, fun whole => ?_, fun whole => ?_⟩
  · obtain ⟨t, ht⟩ := Int.eq_ofNat_of_zero_le whole
    rw [Numeral.value, ht, zpow_natCast] at around
    exact exists_whole_of_around (n := Numeral.digits _ * 10 ^ t) pos (by exact_mod_cast around)
  · obtain ⟨n, hn⟩ := whole
    have some : 1 ≤ n := by
      refine Nat.one_le_iff_ne_zero.2 fun zero => ?_
      rw [zero, Nat.cast_zero] at hn
      exact (mul_pos (Nat.cast_pos.2 pos) (zpow_pos two_pos _)).ne' hn
    have leading : 0 ≤ power := by
      by_contra negative
      have small : (10 : ℚ) ^ (power + 1) ≤ 1 := zpow_le_one_of_nonpos₀ (by norm_num) (by omega)
      have large : (1 : ℚ) ≤ n := by exact_mod_cast some
      linarith
    have whole := isSome_whole pos hn
    have goal : ((Interval.around m ((k : ℤ) - 1074)).onGrid? (max 0 (power - 18))).isSome = true := by
      rcases le_total (power - 18) 0 with low | high
      · rwa [max_eq_left low]
      · rwa [max_eq_right high]
    obtain ⟨p', le, found'⟩ := firstOnGrid_spec goal 20 power (by omega) (by omega)
    obtain ⟨rfl, -⟩ := around_of_onGrid? found'
    omega

end Combo.Number
