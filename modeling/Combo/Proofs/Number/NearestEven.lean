-- SUMMARY: Rounding to the nearest whole number, ties to even: what it is, that it keeps the order, and what computes it.
import Mathlib.Algebra.Order.Field.Basic
import Mathlib.Algebra.Order.Field.Rat
import Mathlib.Algebra.Ring.Parity
import Mathlib.Tactic.Linarith
import Mathlib.Tactic.NormNum
import Combo.Number.Double

/-!
# The nearest even number

A number has exactly one nearest whole number once ties go to the even one, and greater
numbers have greater ones. The division of the rounding of doubles computes it.
-/

namespace Combo.Number

/-- The whole number nearest to a number, and the even one of two. -/
def IsNearestEven (q : ℚ) (n : ℕ) : Prop := |q - n| ≤ 1 / 2 ∧ (|q - n| = 1 / 2 → Even n)

theorem isNearestEven_natCast (n : ℕ) : IsNearestEven n n := by
  norm_num [IsNearestEven]

/-- Greater numbers have greater nearest whole numbers: a tie cannot be even on both sides. -/
theorem IsNearestEven.mono {q q' : ℚ} {n n' : ℕ} (h : IsNearestEven q n) (h' : IsNearestEven q' n')
    (le : q ≤ q') : n ≤ n' := by
  by_contra greater
  have apart : (n' : ℚ) + 1 ≤ n := by exact_mod_cast not_le.1 greater
  have low := (abs_le.1 h.1).1
  have high := (abs_le.1 h'.1).2
  have tie : |q - n| = 1 / 2 := by
    rw [abs_of_nonpos (by linarith)]
    linarith
  have tie' : |q' - n'| = 1 / 2 := by
    rw [abs_of_nonneg (by linarith)]
    linarith
  have next : n = n' + 1 := by
    have upper : (n : ℚ) ≤ n' + 1 := by linarith
    have bound : n ≤ n' + 1 := by exact_mod_cast upper
    omega
  have even := h.2 tie
  rw [next] at even
  exact Nat.not_even_iff_odd.2 (h'.2 tie').add_one even

/-- There is one nearest whole number. -/
theorem IsNearestEven.unique {q : ℚ} {n n' : ℕ} (h : IsNearestEven q n) (h' : IsNearestEven q n') :
    n = n' :=
  le_antisymm (h.mono h' le_rfl) (h'.mono h le_rfl)

/-- A quotient is its whole part and a fraction, which the remainder compares to a half. -/
theorem exists_fraction {d : ℕ} (pos : 0 < d) (n : ℕ) :
    ∃ t : ℚ, (n : ℚ) / d = (n / d : ℕ) + t ∧ 0 ≤ t ∧ t < 1 ∧ (n % d = 0 ↔ t = 0) ∧
      (2 * (n % d) < d ↔ t < 1 / 2) ∧ (d < 2 * (n % d) ↔ 1 / 2 < t) := by
  have positive : (0 : ℚ) < d := Nat.cast_pos.2 pos
  refine ⟨(n % d : ℕ) / d, ?_, div_nonneg (Nat.cast_nonneg _) positive.le, ?_, ?_, ?_, ?_⟩
  · have whole : (n : ℚ) = ((d * (n / d) + n % d : ℕ) : ℚ) := by rw [Nat.div_add_mod]
    rw [div_eq_iff positive.ne', add_mul, div_mul_cancel₀ _ positive.ne']
    push_cast at whole
    linarith
  · rw [div_lt_one positive]
    exact_mod_cast Nat.mod_lt n pos
  · rw [div_eq_zero_iff, Nat.cast_eq_zero, or_iff_left positive.ne']
  · rw [div_lt_div_iff₀ positive two_pos, ← Nat.cast_lt (α := ℚ)]
    push_cast
    rw [mul_comm, one_mul]
  · rw [div_lt_div_iff₀ two_pos positive, ← Nat.cast_lt (α := ℚ)]
    push_cast
    rw [mul_comm (2 : ℚ), one_mul]

/-- A quotient is rounded to the nearest whole number. -/
theorem isNearestEven_roundDiv {d : ℕ} (pos : 0 < d) (n : ℕ) :
    IsNearestEven (n / d) (roundDiv .toEven n d) := by
  obtain ⟨t, parts, start, rest, -, below, above⟩ := exists_fraction pos n
  rw [parts]
  unfold roundDiv
  simp only [below, above]
  by_cases low : t < 1 / 2
  · rw [if_pos low, IsNearestEven, add_sub_cancel_left, abs_of_nonneg start]
    exact ⟨low.le, fun tie => absurd tie low.ne⟩
  · have up : |((n / d : ℕ) : ℚ) + t - (n / d + 1 : ℕ)| = 1 - t := by
      push_cast
      rw [abs_of_nonpos (by linarith)]
      linarith
    by_cases high : 1 / 2 < t
    · rw [if_neg low, if_pos high, IsNearestEven, up]
      exact ⟨by linarith, fun tie => absurd tie (by linarith)⟩
    · have half : t = 1 / 2 := by linarith
      rw [if_neg low, if_neg high]
      by_cases even : n / d % 2 = 0
      · rw [if_pos even, IsNearestEven, add_sub_cancel_left, half]
        exact ⟨by norm_num, fun _ => Nat.even_iff.2 even⟩
      · rw [if_neg even, IsNearestEven, up, half]
        exact ⟨by norm_num, fun _ => (Nat.not_even_iff_odd.1 (mt Nat.even_iff.1 even)).add_one⟩

/-- A significand with an exponent and a scale is rounded to the whole number nearest to their product. -/
theorem isNearestEven_roundScaled (m : ℕ) (e : ℤ) (scale : ℕ) :
    IsNearestEven (m * 2 ^ e * scale) (roundScaled .toEven m e scale) := by
  cases e with
  | ofNat k =>
      have whole : (m : ℚ) * 2 ^ (Int.ofNat k) * scale = ((m * 2 ^ k * scale : ℕ) : ℚ) := by
        push_cast
        rfl
      rw [whole]
      exact isNearestEven_natCast _
  | negSucc k =>
      have quotient : (m : ℚ) * 2 ^ (Int.negSucc k) * scale =
          ((m * scale : ℕ) : ℚ) / ((2 ^ (k + 1) : ℕ) : ℚ) := by
        rw [zpow_negSucc, mul_right_comm, ← div_eq_mul_inv]
        push_cast
        rfl
      rw [quotient]
      exact isNearestEven_roundDiv (Nat.two_pow_pos _) _

end Combo.Number
