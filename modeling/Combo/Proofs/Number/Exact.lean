-- SUMMARY: What a finite double stands for, read off its bits: its parts, its exact number, and the order of both.
import Combo.Proofs.Number.Nearest

/-!
# Doubles as exact numbers

A finite double is a significand of at most 53 bits times a power of two, and the bits
without the sign put the two side by side. A length is a whole number of units, so
lengths are in the order of the numbers they stand for.
-/

namespace Combo.Number

/-- The smallest positive double. -/
def unit : ℚ := 2 ^ (-1074 : ℤ)

theorem unit_pos : 0 < unit := zpow_pos two_pos _

theorem two_zpow_sub (k : ℕ) : (2 : ℚ) ^ ((k : ℤ) - 1074) = 2 ^ k * unit := by
  rw [sub_eq_add_neg, zpow_add₀ two_ne_zero, zpow_natCast, unit]

/-- The bits of a finite double are its significand and its exponent. -/
theorem parts_of_finite {x : Float} (finite : magnitude x < infinityBits) :
    ∃ m k, m < 2 ^ 53 ∧ (k = 0 ∨ 2 ^ 52 ≤ m) ∧ k < 2046 ∧ magnitude x = k * 2 ^ 52 + m ∧
      Parts.ofDouble x = .finite (x.toBits.toNat / 2 ^ 63 == 1) m ((k : Int) - 1074) := by
  unfold magnitude infinityBits at *
  unfold Parts.ofDouble
  simp only [Nat.pow_eq]
  generalize x.toBits.toNat = bits at finite
  rw [if_neg (by omega)]
  by_cases subnormal : bits / 2 ^ 52 % 2 ^ 11 = 0
  · refine ⟨bits % 2 ^ 52, 0, by omega, .inl rfl, by omega, by omega, ?_⟩
    rw [if_pos subnormal]
    rfl
  · refine ⟨2 ^ 52 + bits % 2 ^ 52, bits / 2 ^ 52 % 2 ^ 11 - 1, by omega, .inr (by omega), by omega,
      by omega, ?_⟩
    rw [if_neg subnormal]
    congr 1
    omega

/-- What stands for a number is finite. -/
theorem finite_of_value {x : Float} {q : ℚ} (value : (Parts.ofDouble x).value? = some q) :
    magnitude x < infinityBits := by
  by_contra special
  unfold magnitude infinityBits at special
  unfold Parts.ofDouble at value
  simp only [Nat.pow_eq] at value
  rw [if_pos (by omega)] at value
  split at value <;> cases value

/-- A length is as many units as its bits say. -/
theorem IsLength.value {x : Float} (h : IsLength x) (finite : magnitude x < infinityBits) :
    (Parts.ofDouble x).value? = some (units (magnitude x) * unit) := by
  obtain ⟨m, k, narrow, normal, -, bits, parts⟩ := parts_of_finite finite
  have exact : (m : ℚ) * 2 ^ ((k : ℤ) - 1074) = ((m * 2 ^ k : ℕ) : ℚ) * unit := by
    rw [two_zpow_sub, Nat.cast_mul, Nat.cast_pow, Nat.cast_ofNat, mul_assoc]
  rw [parts, Parts.value?, exact, bits, units_finite narrow normal]
  congr 1
  split
  · rename_i negative
    have zero : magnitude x = 0 := h.sign.resolve_left (by simp at negative; omega)
    obtain rfl : m = 0 := by omega
    simp
  · rw [one_mul]

/-- Lengths are in the order of the numbers they stand for. -/
theorem IsLength.lt_iff_value {x y : Float} (hx : IsLength x) (hy : IsLength y) {q r : ℚ}
    (hq : (Parts.ofDouble x).value? = some q) (hr : (Parts.ofDouble y).value? = some r) :
    x < y ↔ q < r := by
  have finite := finite_of_value hq
  have finite' := finite_of_value hr
  rw [hx.value finite, Option.some.injEq] at hq
  rw [hy.value finite', Option.some.injEq] at hr
  rw [hx.lt_iff hy, ← hq, ← hr, mul_lt_mul_iff_left₀ unit_pos, Nat.cast_lt]
  constructor
  · intro less
    refine lt_of_le_of_ne (units_mono less.le) fun same => ?_
    have same_bits := congrArg nearestBits same
    rw [nearestBits_units hx.stands, nearestBits_units hy.stands] at same_bits
    omega
  · intro less
    by_contra not_less
    exact absurd (units_mono (not_lt.1 not_less)) (not_le.2 less)

/-- A finite number that is not below zero stands for one. -/
theorem exists_value {x : Float} (finite : x.isFinite = true) (notNegative : ¬ x < 0.0) :
    ∃ q : ℚ, 0 ≤ q ∧ (Parts.ofDouble x).value? = some q := by
  have length := isLength_of_finite finite notNegative
  have bounded : magnitude x ≠ infinityBits := fun infinite => by
    change x.toModel.unpack.isFinite = true at finite
    rw [length.stands.eq_infinity infinite] at finite
    cases finite
  exact ⟨_, mul_nonneg (Nat.cast_nonneg _) unit_pos.le,
    length.value (lt_of_le_of_ne length.number bounded)⟩

/-- Doubles that are less are less or equal. -/
theorem le_of_lt_double {x y : Float} (h : x < y) : x ≤ y := by
  rw [lt_iff_compare] at h
  change decide (x.toModel ≤ y.toModel) = true
  rw [decide_eq_true_iff]
  change (Float.Model.UnpackedFloat.compare x.toModel.unpack y.toModel.unpack).any Ordering.isLE = true
  rw [h]
  rfl

end Combo.Number
