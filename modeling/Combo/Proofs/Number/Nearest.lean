-- SUMMARY: Rounding a double to a whole number is rounding what it stands for; quotients that can be rounded.
import Mathlib.Algebra.Order.Round
import Mathlib.Data.Rat.Floor
import Combo.Proofs.Number.Length

/-!
# Rounding to whole numbers

A finite double stands for a rational number, and what it is rounded to is the whole
number nearest to that. The quotient of a finite length and a positive length is never
"not a number", so it can be rounded, if only to the greatest number there is; and
a positive number of milliseconds is a positive length.
-/

namespace Combo

namespace Number

/-! ## Exact numbers -/

/-- The number that a double stands for, if it is finite. -/
def Parts.value? : Parts → Option ℚ
  | .finite negative m e => some ((if negative then -1 else 1) * ((m : ℚ) * 2 ^ e))
  | .infinite _ | .notANumber => none

/-- To round a quotient, halves upwards, is to add a half and cut off. -/
theorem roundDiv_away {d : Nat} (pos : 0 < d) (n : Nat) :
    roundDiv .away n d = (2 * n + d) / (2 * d) := by
  have parts : d * (n / d) + n % d = n := Nat.div_add_mod n d
  have rest : n % d < d := Nat.mod_lt n pos
  have twice : 2 * n + d = 2 * d * (n / d) + (2 * (n % d) + d) := by
    rw [Nat.mul_assoc]
    omega
  rw [twice, Nat.mul_add_div (by omega)]
  unfold roundDiv
  by_cases low : 2 * (n % d) < d
  · have cut : (2 * (n % d) + d) / (2 * d) = 0 := Nat.div_eq_of_lt (by omega)
    simp [low, cut]
  · have cut : (2 * (n % d) + d) / (2 * d) = 1 := Nat.div_eq_of_lt_le (by omega) (by omega)
    simp [low, cut]

theorem roundDiv_eq_round {d : Nat} (pos : 0 < d) (n : Nat) :
    (roundDiv .away n d : ℤ) = round ((n : ℚ) / d) := by
  have half : (n : ℚ) / d + 1 / 2 = ((2 * n + d : ℕ) : ℚ) / ((2 * d : ℕ) : ℚ) := by
    have nonzero : (d : ℚ) ≠ 0 := Nat.cast_ne_zero.2 pos.ne'
    push_cast
    field_simp
  rw [roundDiv_away pos, round_eq, half, Rat.floor_natCast_div_natCast,
    Int.natCast_div]

/-- A significand with an exponent is rounded to the whole number nearest to their product. -/
theorem roundScaled_eq_round (m : Nat) (e : Int) :
    (roundScaled .away m e 1 : ℤ) = round ((m : ℚ) * 2 ^ e) := by
  cases e with
  | ofNat k =>
      have whole : (m : ℚ) * 2 ^ (Int.ofNat k) = ((m * 2 ^ k : ℕ) : ℚ) := by
        push_cast
        rfl
      rw [whole, round_natCast]
      simp [roundScaled]
  | negSucc k =>
      have quotient : (m : ℚ) * 2 ^ (Int.negSucc k) = (m : ℚ) / ((2 ^ (k + 1) : ℕ) : ℚ) := by
        rw [zpow_negSucc, div_eq_mul_inv]
        push_cast
        rfl
      rw [quotient, ← roundDiv_eq_round (Nat.two_pow_pos _)]
      simp [roundScaled]

theorem round_nonpos {q : ℚ} (h : q ≤ 0) : (round q).toNat = 0 := by
  have below : round q < 1 := by
    rw [round_eq, Int.floor_lt]
    norm_num
    linarith
  omega

/-- A finite double is rounded to the whole number nearest to what it stands for. -/
theorem roundToNat_of_value {x : Float} {q : ℚ} (h : (Parts.ofDouble x).value? = some q)
    (most : Nat) : roundToNat most x = min most (round q).toNat := by
  unfold roundToNat
  cases hparts : Parts.ofDouble x with
  | infinite negative => simp [hparts, Parts.value?] at h
  | notANumber => simp [hparts, Parts.value?] at h
  | finite negative m e =>
      simp only [hparts, Parts.value?, Option.some.injEq] at h
      have positive : (0 : ℚ) ≤ (m : ℚ) * 2 ^ e :=
        mul_nonneg (Nat.cast_nonneg m) (zpow_nonneg (by norm_num) e)
      cases negative with
      | true =>
          rw [round_nonpos (by rw [← h]; simpa using positive)]
          simp
      | false =>
          have nearest := roundScaled_eq_round m e
          simp only [Bool.false_eq_true, if_false, one_mul] at h
          rw [← h, ← nearest, Int.toNat_natCast]

theorem roundToNat_of_infinite {x : Float} (h : Parts.ofDouble x = .infinite false) (most : Nat) :
    roundToNat most x = most := by
  simp [roundToNat, h]

/-! ## Numbers that can be rounded -/

open Float.Model

/-- A length is finite, or it is infinity. -/
theorem IsLength.parts {x : Float} (h : IsLength x) :
    (∃ q, (Parts.ofDouble x).value? = some q) ∨ Parts.ofDouble x = .infinite false := by
  obtain ⟨number, sign⟩ := h
  unfold magnitude infinityBits at number
  unfold magnitude at sign
  unfold Parts.ofDouble
  simp only
  generalize x.toBits.toNat = bits at number sign
  by_cases large : bits / Nat.pow 2 52 % Nat.pow 2 11 = 2047
  · have fraction : bits % Nat.pow 2 52 = 0 := by
      norm_num at large ⊢
      omega
    have positive : (bits / Nat.pow 2 63 == 1) = false := by
      norm_num at large ⊢
      omega
    rw [if_pos large, if_pos fraction, positive]
    exact .inr rfl
  · rw [if_neg large]
    split
    · exact .inl ⟨_, rfl⟩
    · exact .inl ⟨_, rfl⟩

/-- The quotient of a finite length and a positive one is a length. -/
theorem IsLength.div {x y : Float} (hx : IsLength x) (hy : IsLength y)
    (finite : magnitude x ≠ infinityBits) (positive : magnitude y ≠ 0) : IsLength (x / y) := by
  by_cases infinite : magnitude y = infinityBits
  · have divisor := hy.stands.eq_infinity infinite
    have quotient : x / y = .ofModel (.pack
        (UnpackedFloat.div Format.binary64 x.toModel.unpack y.toModel.unpack)) := rfl
    rw [quotient, divisor]
    refine isLength_pack ?_
    have stands := hx.stands
    generalize magnitude x = n at *
    generalize x.toModel.unpack = u at *
    cases stands with
    | zero sign => trivial
    | infinity n infinite => exact absurd infinite finite
    | finite m k pos narrow normal bounded => trivial
  · exact (hx.mul_div hy positive infinite).2

/-! ## Whole numbers -/

/-- To multiply with one changes nothing. -/
theorem IsLength.mul_one {x : Float} (h : IsLength x) (positive : magnitude x ≠ 0) :
    magnitude (x * Float.ofBits 0x3FF0000000000000) = magnitude x := by
  have one : (Float.ofBits 0x3FF0000000000000).toModel.unpack =
      .finite .positive (2 ^ 52) (-52) (by decide) := by rfl
  change (UnpackedFloat.pack Format.binary64
    (UnpackedFloat.mul Format.binary64 x.toModel.unpack _)).toNat % 2 ^ 63 = _
  rw [one]
  have stands := h.stands
  have number := h.number
  generalize magnitude x = n at *
  generalize x.toModel.unpack = u at *
  cases stands with
  | zero sign => exact absurd rfl positive
  | infinity n infinite =>
      rw [infinite]
      rfl
  | finite m k pos narrow normal bounded =>
      have long := (Nat.log2_lt pos.ne').2 narrow
      have scaled := rounded_scaled m 0 52
      have log := log2_mul_two_pow pos 52
      have exponent : (k : Int) - 1074 + -52 = k - 1074 - (52 : Nat) := by omega
      have full : k = 0 ∨ m.log2 = 52 := normal.imp_right fun normal => by
        have low := (Nat.le_log2 pos.ne').2 normal
        omega
      have target : Format.binary64.targetExponent
          (totalExponent (m * 2 ^ 52) ((k : Int) - 1074 - (52 : Nat))) = k - 1074 := by
        rw [totalExponent, log]
        change max (((m.log2 + 52 : Nat) : Int) + 1 + ((k : Int) - 1074 - (52 : Nat)) - 53)
          (-1074) = _
        omega
      change (UnpackedFloat.pack Format.binary64 (UnpackedFloat.roundWithAccuracy _ .positive
        (m * 2 ^ 52) ((k : Int) - 1074 + -52) .exact)).toNat % 2 ^ 63 = _
      rw [exponent, pack_roundWithAccuracy (by omega) (by omega) target]
      rw [Nat.zero_add] at scaled
      rw [scaled, rounded_zero]
      unfold infinityBits at *
      omega

theorem rounded_shifted (n k i j : Nat) :
    rounded (n * 2 ^ (i + j)) (k + j) = rounded (n * 2 ^ i) k := by
  rw [Nat.pow_add, ← Nat.mul_assoc, rounded_scaled]

/-- A whole number that is scaled up by 53 bits is rounded like the number itself. -/
theorem pack_roundWithAccuracy_scaled {n : Nat} (pos : 0 < n) :
    (UnpackedFloat.pack Format.binary64 (UnpackedFloat.roundWithAccuracy Format.binary64 .positive
      (n * 2 ^ 53) (-53) .exact)).toNat = nearestBits (n * 2 ^ 1074) := by
  have log := log2_mul_two_pow pos 53
  have target : Format.binary64.targetExponent (totalExponent (n * 2 ^ 53)
      (((n.log2 + 1022 : Nat) : Int) - 1074 - (n.log2 + 1 : Nat))) =
        ((n.log2 + 1022 : Nat) : Int) - 1074 := by
    rw [totalExponent, log]
    change max (((n.log2 + 53 : Nat) : Int) + 1 +
      (((n.log2 + 1022 : Nat) : Int) - 1074 - (n.log2 + 1 : Nat)) - 53) (-1074) = _
    omega
  have exponent : (-53 : Int) = ((n.log2 + 1022 : Nat) : Int) - 1074 - (n.log2 + 1 : Nat) := by
    omega
  have scaled := rounded_shifted n (n.log2 + 1) 53 1021
  rw [exponent, pack_roundWithAccuracy (by omega) (by omega) target, nearestBits,
    log2_mul_two_pow pos, show n.log2 + 1074 - 52 = n.log2 + 1 + 1021 by omega, scaled]

theorem nearestBits_pos {n : Nat} (pos : 0 < n) (k : Nat) : 0 < nearestBits (n * 2 ^ k) := by
  have one : nearestBits 1 = 1 := by decide
  have least := nearestBits_mono (Nat.mul_pos pos (Nat.two_pow_pos k))
  rw [one] at least
  exact least

/-- A positive word is the double nearest to it. -/
theorem magnitude_toFloat {n : Nat} (pos : 0 < n) (small : n < 2 ^ 64) :
    magnitude n.toUInt64.toFloat = nearestBits (n * 2 ^ 1074) := by
  have word : n.toUInt64.toNat = n := UInt64.toNat_ofNat_of_lt' small
  have bounded : nearestBits (n * 2 ^ 1074) ≤ infinityBits := min_le_left _ _
  have packed := pack_round pos 1074
  unfold infinityBits at bounded
  change (UnpackedFloat.pack Format.binary64
    (UnpackedFloat.ofNat Format.binary64 n.toUInt64.toNat)).toNat % 2 ^ 63 = _
  rw [show ((1074 : Nat) : Int) - 1074 = 0 by omega] at packed
  rw [word, UnpackedFloat.ofNat, UnpackedFloat.ofInt, normalize_pos pos, packed]
  omega

/-- A natural number is the double nearest to it. -/
theorem magnitude_ofNat (n : Nat) : magnitude (Float.ofNat n) = nearestBits (n * 2 ^ 1074) := by
  rcases n.eq_zero_or_pos with rfl | pos
  · rw [Nat.zero_mul, nearestBits_zero]
    rfl
  · have bounded : nearestBits (n * 2 ^ 1074) ≤ infinityBits := min_le_left _ _
    have positive := nearestBits_pos pos 1074
    unfold infinityBits at bounded
    change magnitude (Float.ofScientific n false 0) = _
    unfold Float.ofScientific
    split
    · rename_i small
      have plain := magnitude_toFloat pos (lt_trans small.1 (by decide))
      have length : IsLength n.toUInt64.toFloat := isLength_pack (isPlain_ofNat _)
      rw [← plain] at positive ⊢
      exact length.mul_one (by omega)
    · change (UnpackedFloat.pack Format.binary64
        (UnpackedFloat.ofScientific Format.binary64 n 0)).toNat % 2 ^ 63 = _
      have packed := pack_roundWithAccuracy_scaled pos
      have notTiny : ¬ (0 : Int) < -(2 ^ 11 + n.log2) := by omega
      unfold UnpackedFloat.ofScientific
      rw [dif_neg pos.ne', if_neg (by decide), if_neg notTiny, if_pos le_rfl]
      change (UnpackedFloat.pack Format.binary64 (UnpackedFloat.roundWithAccuracy Format.binary64
        .positive ((n <<< 53) * 1) (-53) .exact)).toNat % 2 ^ 63 = _
      rw [Nat.mul_one, Nat.shiftLeft_eq, packed]
      omega

/-- The double of a positive number is no less than that of one. -/
theorem le_magnitude_ofNat {n : Nat} (pos : 0 < n) : 1023 * 2 ^ 52 ≤ magnitude (Float.ofNat n) := by
  have one : nearestBits (2 ^ 52 * 2 ^ 1022) = 1023 * 2 ^ 52 := by
    rw [nearestBits_finite (by decide) (by decide) (.inr le_rfl)]
    decide
  have least (i j k : Nat) (sum : i + j = k) : 2 ^ i * 2 ^ j ≤ n * 2 ^ k := by
    rw [← Nat.pow_add, sum]
    exact Nat.le_mul_of_pos_left _ pos
  rw [magnitude_ofNat, ← one]
  exact nearestBits_mono (least 52 1022 1074 rfl)

/-- The double of a number that is not too large is finite. -/
theorem magnitude_ofNat_lt {n : Nat} (small : n ≤ 2 ^ 52) :
    magnitude (Float.ofNat n) < infinityBits := by
  have bound : nearestBits (2 ^ 52 * 2 ^ 1074) = 1075 * 2 ^ 52 := by
    rw [nearestBits_finite (by decide) (by decide) (.inr le_rfl)]
    decide
  have le : magnitude (Float.ofNat n) ≤ 1075 * 2 ^ 52 := by
    rw [magnitude_ofNat, ← bound]
    exact nearestBits_mono (Nat.mul_le_mul_right _ small)
  unfold infinityBits
  omega

/-! ## Quotients that are not too small -/

open Float.Model.UnpackedFloat in
theorem mantissa_repeat (s : Nat) (em : ExtendedMantissa) :
    (Nat.repeat ExtendedMantissa.shiftRightOne s em).mantissa = em.mantissa / 2 ^ s := by
  induction s with
  | zero => simp [Nat.repeat]
  | succ s ih =>
      rw [Nat.repeat, ExtendedMantissa.shiftRightOne, ih, Nat.div_div_eq_div_mul, ← Nat.pow_succ]

open Float.Model.UnpackedFloat in
/-- A significand is cut off or rounded up by one, whatever is known of the bits after it. -/
theorem roundedMantissa_bounds (em : ExtendedMantissa) :
    em.mantissa ≤ em.roundedMantissa ∧ em.roundedMantissa ≤ em.mantissa + 1 := by
  unfold ExtendedMantissa.roundedMantissa Accuracy.roundToNearestEven
  split <;> omega

open Float.Model.UnpackedFloat in
/-- A positive number that is not too small does not become zero, however it was cut off. -/
theorem pack_roundWithAccuracy_pos {m : Nat} {e : Int} (accuracy : Accuracy) (long : 52 ≤ m.log2)
    (normal : -1022 ≤ m.log2 + e) :
    0 < (UnpackedFloat.pack Format.binary64
      (UnpackedFloat.roundWithAccuracy Format.binary64 .positive m e accuracy)).toNat % 2 ^ 63 := by
  obtain ⟨s, hs⟩ : ∃ s, m.log2 = 52 + s := ⟨m.log2 - 52, by omega⟩
  obtain ⟨k, hk⟩ : ∃ k : Nat, (k : Int) = m.log2 + e + 1022 := ⟨(m.log2 + e + 1022).toNat, by omega⟩
  have exponent : e = (k : Int) - 1074 - s := by omega
  have target : Format.binary64.targetExponent (totalExponent m ((k : Int) - 1074 - s)) =
      k - 1074 := by
    rw [totalExponent]
    change max ((m.log2 : Int) + 1 + ((k : Int) - 1074 - s) - 53) (-1074) = _
    omega
  have bounds := roundedMantissa_bounds
    (Nat.repeat ExtendedMantissa.shiftRightOne s (.ofMantissaAndAccuracy m accuracy))
  have start : (ExtendedMantissa.ofMantissaAndAccuracy m accuracy).mantissa = m := by
    unfold ExtendedMantissa.ofMantissaAndAccuracy
    split <;> rfl
  have high : 2 ^ 52 ≤ m / 2 ^ s := by
    rw [Nat.le_div_iff_mul_le (Nat.two_pow_pos s), ← Nat.pow_add, ← hs]
    exact Nat.log2_self_le (by rintro rfl; simp at hs; omega)
  have low : m / 2 ^ s < 2 ^ 53 := by
    rw [Nat.div_lt_iff_lt_mul (Nat.two_pow_pos s), ← Nat.pow_add]
    exact lt_of_lt_of_le Nat.lt_log2_self (Nat.pow_le_pow_right (by decide) (by omega))
  rw [mantissa_repeat, start] at bounds
  rw [exponent, pack_roundWithAccuracy_of_bounds rfl (by omega) (.inr (by omega)) target]
  unfold infinityBits
  omega

/-- The dividend is scaled up until the quotient has enough bits, or as many as there can be. -/
theorem exists_scaled_quotient {m m' : Nat} (e e' : Int) (pos : 0 < m) (pos' : 0 < m') :
    ∃ (scale : Nat) (target : Int), target = e - e' - scale ∧
      (target ≤ -1074 ∨ target ≤ m.log2 + e - (m'.log2 + e') - 53) ∧
      (m'.log2 + 1 ≤ m.log2 + scale → 2 ^ (m.log2 + scale - (m'.log2 + 1)) ≤ m * 2 ^ scale / m') ∧
      UnpackedFloat.div Format.binary64 (.finite .positive m e pos) (.finite .positive m' e' pos') =
        UnpackedFloat.roundWithAccuracy Format.binary64 .positive (m * 2 ^ scale / m') target
          (UnpackedFloat.accuracyOfFraction (m * 2 ^ scale % m') m') := by
  obtain ⟨target, htarget⟩ : ∃ target, min (e - e')
    (Format.binary64.targetExponent (totalExponent m e - totalExponent m' e')) = target := ⟨_, rfl⟩
  have enough : target ≤ e - e' ∧
      (target ≤ -1074 ∨ target ≤ m.log2 + e - (m'.log2 + e') - 53) := by
    rw [totalExponent, totalExponent] at htarget
    change min (e - e') (max ((m.log2 : Int) + 1 + e - (m'.log2 + 1 + e') - 53) (-1074)) = _
      at htarget
    omega
  obtain ⟨scale, hscale⟩ : ∃ scale : Nat, (e - e' - target).toNat = scale := ⟨_, rfl⟩
  refine ⟨scale, target, by omega, enough.2, ?_, ?_⟩
  · -- the bits of the quotient are those of the scaled dividend less those of the divisor
    intro long
    rw [Nat.le_div_iff_mul_le pos']
    calc 2 ^ (m.log2 + scale - (m'.log2 + 1)) * m'
        ≤ 2 ^ (m.log2 + scale - (m'.log2 + 1)) * 2 ^ (m'.log2 + 1) :=
          Nat.mul_le_mul_left _ Nat.lt_log2_self.le
      _ = 2 ^ m.log2 * 2 ^ scale := by
          rw [← Nat.pow_add, ← Nat.pow_add]
          congr 1
          omega
      _ ≤ m * 2 ^ scale := Nat.mul_le_mul_right _ (Nat.log2_self_le pos.ne')
  · change UnpackedFloat.roundWithAccuracy Format.binary64 .positive
      (m <<< (e - e' - min _ _).toNat / m') (min _ _)
      (UnpackedFloat.accuracyOfFraction (m <<< (e - e' - min _ _).toNat % m') m') = _
    rw [htarget, hscale, Nat.shiftLeft_eq]

/-- The quotient of positive numbers that are not too far apart is not zero. -/
theorem pack_div_pos {m m' : Nat} {e e' : Int} (pos : 0 < m) (pos' : 0 < m')
    (normal : -1021 ≤ m.log2 + e - (m'.log2 + e')) :
    0 < (UnpackedFloat.pack Format.binary64 (UnpackedFloat.div Format.binary64
      (.finite .positive m e pos) (.finite .positive m' e' pos'))).toNat % 2 ^ 63 := by
  obtain ⟨scale, target, exponent, enough, bits, quotient⟩ :=
    exists_scaled_quotient e e' pos pos'
  have bits := bits (by omega)
  have nonzero : m * 2 ^ scale / m' ≠ 0 := (lt_of_lt_of_le (Nat.two_pow_pos _) bits).ne'
  have log := (Nat.le_log2 nonzero).2 bits
  rw [quotient]
  exact pack_roundWithAccuracy_pos _ (by omega) (by omega)

/-- The quotient of a number that is no less than one and a billion is not zero. -/
theorem IsLength.div_billion_pos {x : Float} (h : IsLength x) (large : 1023 * 2 ^ 52 ≤ magnitude x)
    (finite : magnitude x ≠ infinityBits) : 0 < magnitude (x / 1000000000.0) := by
  have billion : (1000000000.0 : Float).toModel.unpack =
      .finite .positive (1000000000 * 2 ^ 23) (-23) (by decide) := by rfl
  have stands := h.stands
  change 0 < (UnpackedFloat.pack Format.binary64
    (UnpackedFloat.div Format.binary64 x.toModel.unpack _)).toNat % 2 ^ 63
  rw [billion]
  generalize magnitude x = n at *
  generalize x.toModel.unpack = u at *
  cases stands with
  | zero sign => omega
  | infinity n infinite => exact absurd infinite finite
  | finite m k pos narrow normal bounded =>
      have log : (1000000000 * 2 ^ 23).log2 = 52 := by decide
      have low := Nat.log2_self_le pos.ne'
      refine pack_div_pos pos (by decide) ?_
      have wide : m.log2 = 52 := (Nat.log2_eq_iff pos.ne').2 ⟨by omega, narrow⟩
      rw [log, wide]
      omega

end Number

/-- A positive number of milliseconds is a positive length. -/
theorem Duration.magnitude_secondsOfMillis_pos {ms : Nat} (pos : 0 < ms) :
    0 < Number.magnitude (secondsOfMillis ms) := by
  have whole : Number.IsLength (Float.ofNat (ms / 1000)) := Number.isLength_ofNat _
  have part : Number.IsLength (Float.ofNat (ms % 1000 * nanosPerMilli)) := Number.isLength_ofNat _
  have fraction := (part.mul_div_of_toBits Number.toBits_billion (by decide) (by decide)).2
  unfold secondsOfMillis
  rcases (ms % 1000).eq_zero_or_pos with none_left | left
  · have seconds := Number.le_magnitude_ofNat (n := ms / 1000) (by omega)
    exact lt_of_lt_of_le (by omega) (whole.self_le_add fraction)
  · have small : ms % 1000 * nanosPerMilli ≤ 2 ^ 52 := by
      unfold nanosPerMilli
      omega
    have nanos := Number.le_magnitude_ofNat (n := ms % 1000 * nanosPerMilli)
      (Nat.mul_pos left (by decide))
    exact lt_of_lt_of_le (part.div_billion_pos nanos (Number.magnitude_ofNat_lt small).ne)
      (whole.le_add fraction)

end Combo
