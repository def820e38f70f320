-- SUMMARY: Seconds as nanoseconds: the nearest whole number, ties to even, as long as the seconds fit 64 bits.
import Combo.Proofs.Number.Exact
import Combo.Proofs.Number.NearestEven

/-!
# Seconds as nanoseconds

A number of seconds that is no less than zero becomes the nearest whole number of
nanoseconds, the even one of two, if there are less than `2 ^ 64` seconds, and nothing
otherwise. So among the seconds that fit, more seconds are never less nanoseconds.
-/

namespace Combo

namespace Number

/-- A number of seconds below `2 ^ 64` stays below the limit when it is rounded. -/
theorem roundScaled_lt_limit {m : ℕ} {e : ℤ} (narrow : m < 2 ^ 53) (fits : (m : ℚ) * 2 ^ e < 2 ^ 64) :
    roundScaled .toEven m e Duration.nanosPerSecond < Duration.limitNanos := by
  unfold Duration.limitNanos
  cases e with
  | ofNat k =>
      -- a whole number of seconds is not rounded at all
      have whole : (m : ℚ) * 2 ^ k < 2 ^ 64 := fits
      have small : m * 2 ^ k < 2 ^ 64 := by exact_mod_cast whole
      exact Nat.mul_lt_mul_of_pos_right small (by decide)
  | negSucc k =>
      -- a fraction has a significand far below the limit
      have below : (m : ℚ) * 2 ^ Int.negSucc k * Duration.nanosPerSecond ≤
          ((m * Duration.nanosPerSecond : ℕ) : ℚ) := by
        have shrinks : (2 : ℚ) ^ Int.negSucc k ≤ 1 :=
          zpow_le_one_of_nonpos₀ one_le_two (Int.negSucc_lt_zero k).le
        push_cast
        gcongr
        exact mul_le_of_le_one_right (Nat.cast_nonneg m) shrinks
      have bound := (isNearestEven_roundScaled m (Int.negSucc k) Duration.nanosPerSecond).mono
        (isNearestEven_natCast _) below
      refine lt_of_le_of_lt bound (Nat.mul_lt_mul_of_pos_right ?_ (by decide))
      exact lt_trans narrow (by decide)

end Number

namespace Duration

open Number

/-- Seconds become the nearest nanoseconds if they are less than `2 ^ 64`, and nothing otherwise. -/
theorem nanos?_of_value {x : Float} {q : ℚ} (value : (Parts.ofDouble x).value? = some q)
    (nonneg : 0 ≤ q) :
    (q < 2 ^ 64 → ∃ n, nanos? x = some n ∧ IsNearestEven (q * 10 ^ 9) n) ∧
      (2 ^ 64 ≤ q → nanos? x = none) := by
  obtain ⟨m, k, narrow, -, -, -, parts⟩ := parts_of_finite (finite_of_value value)
  generalize (x.toBits.toNat / 2 ^ 63 == 1) = negative at parts
  have exact : q = m * 2 ^ ((k : ℤ) - 1074) ∧ (negative && m != 0) = false := by
    rw [parts, Parts.value?, Option.some.injEq] at value
    cases negative with
    | false => exact ⟨by simpa using value.symm, rfl⟩
    | true =>
        -- a negative number that is no less than zero is zero
        have positive : (0 : ℚ) < 2 ^ ((k : ℤ) - 1074) := zpow_pos two_pos _
        have zero : m = 0 := by
          by_contra some_left
          have more : (0 : ℚ) < m * 2 ^ ((k : ℤ) - 1074) :=
            mul_pos (Nat.cast_pos.2 (Nat.pos_of_ne_zero some_left)) positive
          simp only [if_true] at value
          linarith
        subst zero
        exact ⟨by simpa using value.symm, rfl⟩
  obtain ⟨rfl, accepted⟩ := exact
  have nearest := isNearestEven_roundScaled m ((k : ℤ) - 1074) nanosPerSecond
  have read : nanos? x = if roundScaled .toEven m ((k : ℤ) - 1074) nanosPerSecond < limitNanos then
      some (roundScaled .toEven m ((k : ℤ) - 1074) nanosPerSecond) else none := by
    simp only [nanos?, parts, accepted, Bool.false_eq_true, if_false]
  have scale : ((nanosPerSecond : ℕ) : ℚ) = 10 ^ 9 := by norm_num [nanosPerSecond]
  rw [scale] at nearest
  constructor
  · intro fits
    exact ⟨_, by rw [read, if_pos (roundScaled_lt_limit narrow fits)], nearest⟩
  · intro long
    have limit : ((limitNanos : ℕ) : ℚ) = 2 ^ 64 * 10 ^ 9 := by norm_num [limitNanos, nanosPerSecond]
    have least := (isNearestEven_natCast limitNanos).mono nearest (by rw [limit]; gcongr)
    rw [read, if_neg (not_lt.2 least)]

end Duration

end Combo
