-- SUMMARY: The decimal text of a natural number is read back as the number, and is what any text of the number has after its zeros.
import Mathlib.Algebra.Group.Nat.Defs
import Mathlib.Data.List.Induction
import Combo.Number.Integer

/-!
# Numerals

The digits of a natural number are written from the last to the first by division,
and read from the first to the last by multiplication. Both meet at the last digit.
-/

namespace Combo.Number

/-- A row of digits is read by reading all but the last first. -/
theorem digitsFrom?_append_singleton (acc : Nat) (l : List Char) (c : Char) :
    digitsFrom? acc (l ++ [c]) =
      (digitsFrom? acc l).bind fun n => (digit? c).map fun d => 10 * n + d := by
  induction l generalizing acc with
  | nil => cases h : digit? c <;> simp [digitsFrom?, h]
  | cons b l ih =>
      cases h : digit? b with
      | none => simp [digitsFrom?, h]
      | some d => simpa [digitsFrom?, h] using ih (10 * acc + d)

/-- The character of a digit has the value of the digit. -/
theorem digit?_ofNat {d : Nat} (h : d < 10) : digit? (Char.ofNat (d + 48)) = some d := by
  have all : ∀ d : Fin 10, digit? (Char.ofNat (d + 48)) = some d.val := by decide
  exact all ⟨d, h⟩

/-- The decimal digits of a number are read back as the number. -/
theorem digitsFrom?_decimal (n : Nat) : digitsFrom? 0 (decimal n) = some n := by
  induction n using decimal.induct with
  | case1 n small => rw [decimal, if_pos small]; simp [digitsFrom?, digit?_ofNat small]
  | case2 n large ih =>
      rw [decimal, if_neg large, digitsFrom?_append_singleton, ih,
        digit?_ofNat (Nat.mod_lt n (by decide))]
      simp [Nat.div_add_mod]

/-- A number has as many digits as its size says. -/
theorem decimal_bounds (n : Nat) : n < 10 ^ (decimal n).length ∧
    (0 < n → 10 ^ ((decimal n).length - 1) ≤ n) ∧ 0 < (decimal n).length := by
  induction n using decimal.induct with
  | case1 n small =>
      rw [decimal, if_pos small]
      simp only [List.length_singleton, Nat.pow_one, Nat.sub_self, Nat.pow_zero]
      omega
  | case2 n large ih =>
      obtain ⟨above, below, some⟩ := ih
      have below := below (by omega)
      rw [decimal, if_neg large, List.length_append, List.length_singleton, Nat.pow_succ]
      obtain ⟨k, hk⟩ : ∃ k, (decimal (n / 10)).length = k + 1 := ⟨_, (Nat.succ_pred_eq_of_pos some).symm⟩
      rw [hk] at above below ⊢
      rw [Nat.add_sub_cancel] at below ⊢
      rw [Nat.pow_succ] at above ⊢
      omega

/-- Different numbers have different texts. -/
theorem natText_injective {m n : Nat} (h : natText m = natText n) : m = n := by
  have digits : decimal m = decimal n := by simpa [natText] using congrArg String.toList h
  have read := digitsFrom?_decimal m
  rw [digits, digitsFrom?_decimal n] at read
  exact (Option.some.inj read).symm

/-! ## The texts of a number -/

theorem digit?_eq_some {c : Char} {d : Nat} (h : digit? c = some d) :
    d < 10 ∧ c = Char.ofNat (d + 48) := by
  unfold digit? at h
  split at h
  · rename_i range
    have low : 48 ≤ c.toNat := range.1
    have high : c.toNat ≤ 57 := range.2
    have value : c.toNat - 48 = d := Option.some.inj h
    refine ⟨by omega, ?_⟩
    rw [show d + 48 = c.toNat by omega, Char.ofNat_toNat]
  · cases h

/-- Zeros in front change nothing. -/
theorem digitsFrom?_zeros (z : Nat) (l : List Char) :
    digitsFrom? 0 (List.replicate z '0' ++ l) = digitsFrom? 0 l := by
  have zero : digit? '0' = some 0 := by decide
  induction z with
  | zero => rfl
  | succ z ih => simpa [List.replicate_succ, digitsFrom?, zero] using ih

/-- What is read as a number is its decimal text after zeros. -/
theorem eq_zeros_append_decimal {l : List Char} {n : Nat} (h : digitsFrom? 0 l = some n) :
    ∃ z, l = List.replicate z '0' ++ if n = 0 then [] else decimal n := by
  induction l using List.reverseRecOn generalizing n with
  | nil =>
      obtain rfl : 0 = n := Option.some.inj h
      exact ⟨0, rfl⟩
  | append_singleton l c ih =>
      rw [digitsFrom?_append_singleton, Option.bind_eq_some_iff] at h
      obtain ⟨m, front, last⟩ := h
      obtain ⟨d, digit, rfl⟩ := Option.map_eq_some_iff.1 last
      obtain ⟨small, rfl⟩ := digit?_eq_some digit
      obtain ⟨z, rfl⟩ := ih front
      by_cases zero : m = 0
      · subst zero
        by_cases nothing : d = 0
        · subst nothing
          refine ⟨z + 1, ?_⟩
          rw [if_pos rfl, List.append_nil, List.replicate_succ']
          simp
        · refine ⟨z, ?_⟩
          rw [if_pos rfl, if_neg (by omega), decimal, if_pos (by omega), Nat.mul_zero, Nat.zero_add,
            List.append_nil]
      · refine ⟨z, ?_⟩
        rw [if_neg zero, if_neg (by omega), List.append_assoc, decimal.eq_def (10 * m + d),
          if_neg (by omega), show (10 * m + d) / 10 = m by omega,
          show (10 * m + d) % 10 = d by omega]

/-- The texts of a positive number are its decimal text and that with zeros in front. -/
theorem digits?_eq_some_iff {n : Nat} (pos : 0 < n) (l : List Char) :
    digits? l = some n ↔ ∃ z, l = List.replicate z '0' ++ decimal n := by
  constructor
  · intro h
    cases l with
    | nil => cases h
    | cons c r =>
        obtain ⟨z, hz⟩ := eq_zeros_append_decimal h
        exact ⟨z, by rwa [if_neg (by omega)] at hz⟩
  · rintro ⟨z, rfl⟩
    have read := digitsFrom?_zeros z (decimal n)
    rw [digitsFrom?_decimal] at read
    cases text : List.replicate z '0' ++ decimal n with
    | nil =>
        rw [text] at read
        cases read
        cases pos
    | cons c r =>
        rw [text] at read
        exact read

/-! ## Signed and unsigned readings -/

theorem digits?_minus (r : List Char) : digits? ('-' :: r) = none := by
  have noDigit : digit? '-' = none := by decide
  simp [digits?, digitsFrom?, noDigit]

/-- What is read without a sign is read with one, if the bounds for that are no narrower. -/
theorem signed?_of_unsigned? {bits max n : Nat} {s : List Char} (h : unsigned? max s = some n)
    (wide : max < Nat.pow 2 (bits - 1)) : signed? bits s = some (n : Int) := by
  obtain ⟨digits, bound⟩ := Option.filter_eq_some_iff.1 h
  have within : -(Nat.pow 2 (bits - 1) : Int) ≤ (n : Int) ∧ (n : Int) < Nat.pow 2 (bits - 1) := by
    have le : n ≤ max := by simpa using bound
    omega
  refine Option.filter_eq_some_iff.2 ⟨?_, by simpa using within⟩
  split at digits
  · rename_i r
    simp [digits]
  · rename_i noPlus
    split
    · rw [digits?_minus] at digits
      cases digits
    · rename_i r
      exact absurd rfl (noPlus r)
    · simp [digits]

end Combo.Number
