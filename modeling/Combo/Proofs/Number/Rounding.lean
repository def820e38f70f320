-- SUMMARY: Rounding to doubles respects the order: the bits of the nearest double as a function of an exact number.
import Mathlib.Algebra.Order.Group.Nat
import Mathlib.Order.Monotone.Defs
import Combo.Proofs.Number.Duration

/-!
# Rounding to doubles

A number is rounded by shifting bits out of its significand and settling what was
shifted out. As a whole number of the smallest positive double it determines the
bits of the double it is rounded to, and a greater number never gets smaller bits:
within one exponent the significands are in order, and a greater exponent
outweighs every significand.
-/

namespace Combo.Number

open Float.Model Float.Model.UnpackedFloat

/-! ## Bits shifted out -/

/-- A significand and the bits shifted out of it as one number. -/
def withTail (em : ExtendedMantissa) : Nat :=
  4 * em.mantissa + 2 * em.roundBit.toNat + em.stickyBit.toNat

/-- What is left of such a number when one more bit is shifted out. -/
def halved (n : Nat) : Nat := 2 * (n / 4) + min 1 (n % 4)

/-- The significand nearest to such a number; ties go to the even one. -/
def settled (n : Nat) : Nat := n / 4 + (if n % 4 = 2 then n / 4 % 2 else n % 4 / 3)

theorem withTail_shiftRightOne (em : ExtendedMantissa) :
    withTail em.shiftRightOne = halved (withTail em) := by
  obtain ⟨m, r, s⟩ := em
  have parity : (m % 2 == 1).toNat = m % 2 := by
    rcases Nat.mod_two_eq_zero_or_one m with h | h <;> simp [h]
  cases r <;> cases s <;> simp [withTail, halved, ExtendedMantissa.shiftRightOne, parity] <;> omega

theorem roundedMantissa_eq (em : ExtendedMantissa) :
    em.roundedMantissa = settled (withTail em) := by
  obtain ⟨m, r, s⟩ := em
  cases r <;> cases s <;>
    simp [withTail, settled, ExtendedMantissa.roundedMantissa, ExtendedMantissa.accuracy,
      Accuracy.roundToNearestEven, Nat.add_assoc, Nat.mul_add_div]

theorem halved_mono {a b : Nat} (h : a ≤ b) : halved a ≤ halved b := by
  unfold halved
  omega

theorem settled_mono {a b : Nat} (h : a ≤ b) : settled a ≤ settled b := by
  unfold settled
  split <;> split <;> omega

/-- The whole number nearest to `m / 2 ^ k`. -/
def rounded (m k : Nat) : Nat :=
  (Nat.repeat ExtendedMantissa.shiftRightOne k ⟨m, false, false⟩).roundedMantissa

theorem rounded_eq (m k : Nat) : rounded m k = settled (halved^[k] (4 * m)) := by
  have tail (em : ExtendedMantissa) :
      withTail (Nat.repeat ExtendedMantissa.shiftRightOne k em) = halved^[k] (withTail em) := by
    induction k with
    | zero => rfl
    | succ k ih => rw [Nat.repeat, withTail_shiftRightOne, ih, Function.iterate_succ_apply']
  rw [rounded, roundedMantissa_eq, tail]
  rfl

theorem rounded_zero (m : Nat) : rounded m 0 = m := rfl

theorem rounded_double (m k : Nat) : rounded (m * 2) (k + 1) = rounded m k := by
  have even : halved (4 * (m * 2)) = 4 * m := by
    unfold halved
    omega
  rw [rounded_eq, rounded_eq, Function.iterate_succ_apply, even]

theorem rounded_scaled (m k j : Nat) : rounded (m * 2 ^ j) (k + j) = rounded m k := by
  induction j with
  | zero => simp
  | succ j ih => rw [← ih, ← rounded_double (m * 2 ^ j), Nat.mul_assoc, ← Nat.pow_succ, Nat.add_assoc]

theorem rounded_mono {m m' : Nat} (h : m ≤ m') (k : Nat) : rounded m k ≤ rounded m' k := by
  rw [rounded_eq, rounded_eq]
  refine settled_mono ?_
  exact Monotone.iterate (fun _ _ => halved_mono) k (by omega)

theorem rounded_bounds (m k : Nat) : m / 2 ^ k ≤ rounded m k ∧ rounded m k ≤ m / 2 ^ k + 1 := by
  have quotient : halved^[k] (4 * m) / 4 = m / 2 ^ k := by
    induction k with
    | zero => simp
    | succ k ih =>
        rw [Function.iterate_succ_apply', Nat.pow_succ, ← Nat.div_div_eq_div_mul, ← ih]
        unfold halved
        omega
  rw [rounded_eq, ← quotient]
  unfold settled
  split <;> omega

/-! ## The nearest double -/

/-- The bits of positive infinity. -/
def infinityBits : Nat := 2047 * 2 ^ 52

/-- The bits of the double nearest to `n * 2 ^ (-1074)`. -/
def nearestBits (n : Nat) : Nat :=
  min infinityBits ((n.log2 - 52) * 2 ^ 52 + rounded n (n.log2 - 52))

theorem rounded_le {n k : Nat} (h : n.log2 ≤ 52 + k) : rounded n k ≤ 2 ^ 53 := by
  have below : n < 2 ^ 53 * 2 ^ k := by
    rw [← Nat.pow_add]
    exact lt_of_lt_of_le Nat.lt_log2_self (Nat.pow_le_pow_right (by decide) (by omega))
  have quotient := (Nat.div_lt_iff_lt_mul (Nat.two_pow_pos k)).2 below
  exact (rounded_bounds n k).2.trans quotient

theorem le_rounded {n k : Nat} (h : n.log2 = 52 + k) : 2 ^ 52 ≤ rounded n k := by
  have above : 2 ^ 52 * 2 ^ k ≤ n := by
    rw [← Nat.pow_add, ← h]
    refine Nat.log2_self_le ?_
    rintro rfl
    simp at h
    omega
  exact le_trans ((Nat.le_div_iff_mul_le (Nat.two_pow_pos k)).2 above) (rounded_bounds n k).1

theorem log2_mono {n n' : Nat} (h : n ≤ n') : n.log2 ≤ n'.log2 := by
  rcases n.eq_zero_or_pos with rfl | pos
  · simp
  · exact (Nat.le_log2 (by omega)).2 ((Nat.log2_self_le (by omega)).trans h)

/-- The nearest double respects the order. -/
theorem nearestBits_mono {n n' : Nat} (h : n ≤ n') : nearestBits n ≤ nearestBits n' := by
  refine min_le_min le_rfl ?_
  have logs : n.log2 - 52 ≤ n'.log2 - 52 := Nat.sub_le_sub_right (log2_mono h) 52
  rcases logs.eq_or_lt with same | less
  · rw [same]
    exact Nat.add_le_add_left (rounded_mono h _) _
  · -- the greater number has more bits, and a greater exponent outweighs every significand
    have low := rounded_le (n := n) (k := n.log2 - 52) (by omega)
    have high := le_rounded (n := n') (k := n'.log2 - 52) (by omega)
    omega

theorem log2_mul_two_pow {m : Nat} (pos : 0 < m) (k : Nat) : (m * 2 ^ k).log2 = m.log2 + k := by
  have low := Nat.log2_self_le (n := m) (by omega)
  have high := Nat.lt_log2_self (n := m)
  refine (Nat.log2_eq_iff (Nat.mul_pos pos (Nat.two_pow_pos k)).ne').2 ⟨?_, ?_⟩
  · rw [Nat.pow_add]
    exact Nat.mul_le_mul_right _ low
  · rw [Nat.add_right_comm, Nat.pow_add]
    exact Nat.mul_lt_mul_of_pos_right high (Nat.two_pow_pos k)

theorem nearestBits_zero : nearestBits 0 = 0 := by decide

/-- A number that needs no rounding keeps its significand and its exponent. -/
theorem nearestBits_finite {m k : Nat} (pos : 0 < m) (narrow : m < 2 ^ 53)
    (normal : k = 0 ∨ 2 ^ 52 ≤ m) :
    nearestBits (m * 2 ^ k) = min infinityBits (k * 2 ^ 52 + m) := by
  have shift : (m * 2 ^ k).log2 - 52 = k := by
    rw [log2_mul_two_pow pos]
    have high := (Nat.log2_lt pos.ne').2 narrow
    rcases normal with rfl | normal
    · omega
    · have low := (Nat.le_log2 pos.ne').2 normal
      omega
  have whole : rounded (m * 2 ^ k) k = m := by
    have h := rounded_scaled m 0 k
    rwa [Nat.zero_add, rounded_zero] at h
  rw [nearestBits, shift, whole]

/-! ## Rounding and packing -/

theorem packComponents_toNat (exponent : BitVec 11) (mantissa : BitVec 52) :
    (packComponents Format.binary64 .positive exponent mantissa).toNat =
      exponent.toNat * 2 ^ 52 + mantissa.toNat := by
  have low := mantissa.isLt
  have none_left : (Sign.positive.toBitVec ++ exponent).toNat = exponent.toNat := by
    rw [Sign.toBitVec, BitVec.toNat_append]
    simp
  rw [packComponents]
  change ((Sign.positive.toBitVec ++ exponent) ++ mantissa).toNat = _
  rw [BitVec.toNat_append, none_left, ← Nat.shiftLeft_add_eq_or_of_lt low, Nat.shiftLeft_eq]

/-- How a finite number is packed: its exponent may be too large, and the smallest have none. -/
theorem pack_of_finite (sign : Sign) {m : Nat} (e : Int) (pos : 0 < m) :
    UnpackedFloat.pack Format.binary64 (.finite sign m e pos) =
      if 2 ^ 11 ≤ (e + 1023 + 52).toNat + 1 then packedInfinity _ sign
      else if m.log2 + 1 = 53 then
        packComponents _ sign (BitVec.ofNat 11 (e + 1023 + 52).toNat) (BitVec.ofNat 52 m)
      else packComponents _ sign (0#11) (BitVec.ofNat 52 m) := rfl

/-- The bits of a positive double whose significand fits. -/
theorem pack_finite {m k : Nat} (pos : 0 < m) (narrow : m < 2 ^ 53) (normal : k = 0 ∨ 2 ^ 52 ≤ m) :
    (UnpackedFloat.pack Format.binary64 (.finite .positive m (k - 1074) pos)).toNat =
      min infinityBits (k * 2 ^ 52 + m) := by
  have biased : ((k : Int) - 1074 + 1023 + 52).toNat = k + 1 := by omega
  rw [pack_of_finite, biased]
  by_cases high : 2046 ≤ k
  · rw [if_pos (by omega), min_eq_left (by unfold infinityBits; omega)]
    rfl
  · rw [if_neg (by omega), min_eq_right (by unfold infinityBits; omega)]
    by_cases subnormal : m < 2 ^ 52
    · obtain rfl : k = 0 := by omega
      have short := (Nat.log2_lt pos.ne').2 subnormal
      rw [if_neg (by omega), packComponents_toNat, BitVec.toNat_ofNat, BitVec.toNat_ofNat,
        Nat.mod_eq_of_lt subnormal]
    · have long : m.log2 = 52 := (Nat.log2_eq_iff pos.ne').2 ⟨by omega, narrow⟩
      rw [if_pos (by omega), packComponents_toNat, BitVec.toNat_ofNat, BitVec.toNat_ofNat]
      omega

theorem shiftToTargetExponent_narrow {m k : Nat} (narrow : m < 2 ^ 53) :
    shiftToTargetExponent Format.binary64 m ((k : Int) - 1074) .exact =
      (⟨m, false, false⟩, (k : Int) - 1074) := by
  have short : m.log2 ≤ 52 := by
    rcases m.eq_zero_or_pos with rfl | pos
    · simp
    · exact Nat.le_of_lt_succ ((Nat.log2_lt pos.ne').2 narrow)
  have still : (Format.binary64.targetExponent (totalExponent m ((k : Int) - 1074)) -
      ((k : Int) - 1074)).toNat = 0 := by
    change (max ((m.log2 : Int) + 1 + (k - 1074) - 53) (-1074) - (k - 1074)).toNat = 0
    omega
  simp only [shiftToTargetExponent, shiftToExponent, still]
  simp [ExtendedMantissa.ofMantissaAndAccuracy, HShiftRight.hShiftRight, Nat.repeat]

/-- A significand that was rounded up to one more bit gives it to the exponent. -/
theorem shiftToTargetExponent_carry (k : Nat) :
    shiftToTargetExponent Format.binary64 (2 ^ 53) ((k : Int) - 1074) .exact =
      (⟨2 ^ 52, false, false⟩, ((k + 1 : Nat) : Int) - 1074) := by
  have one : (Format.binary64.targetExponent (totalExponent (2 ^ 53) ((k : Int) - 1074)) -
      ((k : Int) - 1074)).toNat = 1 := by
    rw [totalExponent, Nat.log2_two_pow]
    change (max (((53 : Nat) : Int) + 1 + (k - 1074) - 53) (-1074) - (k - 1074)).toNat = 1
    omega
  simp only [shiftToTargetExponent, shiftToExponent, one]
  refine Prod.ext rfl ?_
  push_cast
  omega

/-- To round is to shift, to settle what was shifted out, and to shift once more. -/
theorem roundWithAccuracy_of_shifts {sign : Sign} {m : Nat} {e e' e'' : Int} {accuracy : Accuracy}
    {em em' : ExtendedMantissa}
    (first : shiftToTargetExponent Format.binary64 m e accuracy = (em, e'))
    (second : shiftToTargetExponent Format.binary64 em.roundedMantissa e' .exact = (em', e'')) :
    roundWithAccuracy Format.binary64 sign m e accuracy =
      if h : em'.mantissa = 0 then .zero sign
      else .finite sign em'.mantissa e'' (Nat.pos_of_ne_zero h) := by
  rw [roundWithAccuracy, first]
  dsimp only
  rw [second]

/-- What is rounded is zero or finite, and keeps its sign. -/
theorem roundWithAccuracy_cases (sign : Sign) (m : Nat) (e : Int) (accuracy : Accuracy) :
    roundWithAccuracy Format.binary64 sign m e accuracy = .zero sign ∨
      ∃ m' e' pos, roundWithAccuracy Format.binary64 sign m e accuracy = .finite sign m' e' pos := by
  obtain ⟨em, e', first⟩ : ∃ em e',
      shiftToTargetExponent Format.binary64 m e accuracy = (em, e') := ⟨_, _, rfl⟩
  obtain ⟨em', e'', second⟩ : ∃ em' e'',
      shiftToTargetExponent Format.binary64 em.roundedMantissa e' .exact = (em', e'') := ⟨_, _, rfl⟩
  rw [roundWithAccuracy_of_shifts first second]
  by_cases zero : em'.mantissa = 0
  · exact .inl (dif_pos zero)
  · exact .inr ⟨_, _, _, dif_neg zero⟩

/-- The bits of a positive number, from the significand it is rounded to. -/
theorem pack_roundWithAccuracy_of_bounds {m k s r : Nat} {accuracy : Accuracy}
    (nearest : (Nat.repeat ExtendedMantissa.shiftRightOne s
      (.ofMantissaAndAccuracy m accuracy)).roundedMantissa = r)
    (most : r ≤ 2 ^ 53) (least : k = 0 ∨ 2 ^ 52 ≤ r)
    (target : Format.binary64.targetExponent (totalExponent m ((k : Int) - 1074 - s)) = k - 1074) :
    (UnpackedFloat.pack Format.binary64
      (roundWithAccuracy Format.binary64 .positive m ((k : Int) - 1074 - s) accuracy)).toNat =
        min infinityBits (k * 2 ^ 52 + r) := by
  have shift : ((k : Int) - 1074 - ((k : Int) - 1074 - s)).toNat = s := by omega
  have back : (k : Int) - 1074 - s + s = k - 1074 := by omega
  have first : shiftToTargetExponent Format.binary64 m ((k : Int) - 1074 - s) accuracy =
      (Nat.repeat ExtendedMantissa.shiftRightOne s (.ofMantissaAndAccuracy m accuracy),
        (k : Int) - 1074) := by
    simp only [shiftToTargetExponent, shiftToExponent, target, shift, back]
    rfl
  rcases most.lt_or_eq with narrow | full
  · have second : shiftToTargetExponent Format.binary64
        (Nat.repeat ExtendedMantissa.shiftRightOne s
          (.ofMantissaAndAccuracy m accuracy)).roundedMantissa ((k : Int) - 1074) .exact =
        (⟨r, false, false⟩, (k : Int) - 1074) := by
      rw [nearest, shiftToTargetExponent_narrow narrow]
    rw [roundWithAccuracy_of_shifts first second]
    by_cases zero : r = 0
    · obtain rfl : k = 0 := by omega
      rw [dif_pos zero, zero]
      rfl
    · rw [dif_neg zero]
      exact pack_finite (Nat.pos_of_ne_zero zero) narrow least
  · have second := shiftToTargetExponent_carry k
    rw [← full, ← nearest] at second
    rw [roundWithAccuracy_of_shifts first second, dif_neg (by decide),
      pack_finite (by decide) (by decide) (.inr le_rfl), full,
      show (k + 1) * 2 ^ 52 + 2 ^ 52 = k * 2 ^ 52 + 2 ^ 53 by omega]

/-- The bits of a positive number whose significand has enough bits, once it is rounded. -/
theorem pack_roundWithAccuracy {m k s : Nat} (long : m.log2 ≤ 52 + s) (normal : k = 0 ∨ m.log2 = 52 + s)
    (target : Format.binary64.targetExponent (totalExponent m ((k : Int) - 1074 - s)) = k - 1074) :
    (UnpackedFloat.pack Format.binary64
      (roundWithAccuracy Format.binary64 .positive m ((k : Int) - 1074 - s) .exact)).toNat =
        min infinityBits (k * 2 ^ 52 + rounded m s) :=
  pack_roundWithAccuracy_of_bounds rfl (rounded_le long) (normal.imp_right le_rounded) target

/-- The bits of a positive number that is rounded. -/
theorem pack_round {m : Nat} (pos : 0 < m) (j : Nat) :
    (UnpackedFloat.pack Format.binary64
        (UnpackedFloat.round Format.binary64 .positive m ((j : Int) - 1074))).toNat =
      nearestBits (m * 2 ^ j) := by
  have target (s : Nat) : Format.binary64.targetExponent
      (totalExponent (m * 2 ^ s) ((j : Int) - 1074 - s)) = ((m.log2 + j - 52 : Nat) : Int) - 1074 := by
    rw [totalExponent, log2_mul_two_pow pos]
    change max (((m.log2 + s : Nat) : Int) + 1 + ((j : Int) - 1074 - s) - 53) (-1074) = _
    omega
  have plain := target 0
  rw [Nat.pow_zero, Nat.mul_one, Int.ofNat_zero, Int.sub_zero] at plain
  simp only [UnpackedFloat.round, decreaseExponent, plain, Nat.shiftLeft_eq]
  rw [nearestBits, log2_mul_two_pow pos]
  generalize hk : m.log2 + j - 52 = k at *
  rcases le_or_gt j k with short | long
  · -- the significand has bits to lose
    have amount : ((j : Int) - 1074 - (k - 1074)).toNat = 0 := by omega
    have exponent : (j : Int) - 1074 = k - 1074 - ((k - j : Nat) : Int) := by omega
    have scaled := rounded_scaled m (k - j) j
    rw [Nat.sub_add_cancel short] at scaled
    rw [amount, Nat.pow_zero, Nat.mul_one, Int.ofNat_zero, Int.sub_zero, exponent, scaled]
    exact pack_roundWithAccuracy (by omega) (by omega) (exponent ▸ plain)
  · -- the significand is lengthened, and nothing is lost
    have amount : ((j : Int) - 1074 - (k - 1074)).toNat = j - k := by omega
    have exponent : (j : Int) - 1074 - ((j - k : Nat) : Int) = k - 1074 - ((0 : Nat) : Int) := by omega
    have scaled := rounded_scaled (m * 2 ^ (j - k)) 0 k
    rw [Nat.zero_add, Nat.mul_assoc, ← Nat.pow_add, Nat.sub_add_cancel long.le] at scaled
    have log := log2_mul_two_pow pos (j - k)
    rw [amount, exponent, scaled]
    exact pack_roundWithAccuracy (by omega) (by omega) (exponent ▸ target (j - k))

end Combo.Number
