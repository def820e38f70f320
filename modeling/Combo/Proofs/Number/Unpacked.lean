-- SUMMARY: Doubles that are no less than zero as whole numbers of units: what their bits stand for, compared, added and subtracted.
import Combo.Proofs.Number.Rounding

/-!
# Doubles as whole numbers of units

Every finite double that is no less than zero is a whole number of the smallest
positive one, the unit. Its bits without the sign stand for it, greater bits for more
units, and infinity continues the row. A sum is the exact sum of units, rounded; so
is a difference, unless nothing is left.
-/

namespace Combo.Number

open Float.Model Float.Model.UnpackedFloat

/-! ## What bits stand for -/

/-- What the bits of a double that is no less than zero stand for, less the sign of a zero. -/
inductive Stands : UnpackedFloat → Nat → Prop
  | zero (sign : Sign) : Stands (.zero sign) 0
  | finite (m k : Nat) (pos : 0 < m) (narrow : m < 2 ^ 53) (normal : k = 0 ∨ 2 ^ 52 ≤ m)
      (bounded : k < 2046) : Stands (.finite .positive m (k - 1074) pos) (k * 2 ^ 52 + m)
  | infinity (n : Nat) (infinite : n = infinityBits) : Stands (.infinity .positive) n

/-- How many times `2 ^ (-1074)` the double with these bits is. -/
def units (n : Nat) : Nat :=
  if n < 2 ^ 52 then n else (2 ^ 52 + n % 2 ^ 52) * 2 ^ (n / 2 ^ 52 - 1)

theorem units_finite {m k : Nat} (narrow : m < 2 ^ 53) (normal : k = 0 ∨ 2 ^ 52 ≤ m) :
    units (k * 2 ^ 52 + m) = m * 2 ^ k := by
  by_cases subnormal : m < 2 ^ 52
  · obtain rfl : k = 0 := by omega
    rw [units, if_pos (by omega), Nat.zero_mul, Nat.zero_add, Nat.pow_zero, Nat.mul_one]
  · have fraction : 2 ^ 52 + (k * 2 ^ 52 + m) % 2 ^ 52 = m := by omega
    have exponent : (k * 2 ^ 52 + m) / 2 ^ 52 - 1 = k := by omega
    rw [units, if_neg (by omega), fraction, exponent]

/-- Greater bits are more units. -/
theorem units_mono {n n' : Nat} (h : n ≤ n') : units n ≤ units n' := by
  unfold units
  split
  · split
    · exact h
    · have pos := Nat.two_pow_pos (n' / 2 ^ 52 - 1)
      exact le_trans (by omega) (Nat.le_mul_of_pos_right _ pos)
  · split
    · omega
    · have exponents : n / 2 ^ 52 ≤ n' / 2 ^ 52 := Nat.div_le_div_right h
      rcases exponents.eq_or_lt with same | less
      · rw [same]
        exact Nat.mul_le_mul_right _ (by omega)
      · -- a greater exponent outweighs every significand
        calc (2 ^ 52 + n % 2 ^ 52) * 2 ^ (n / 2 ^ 52 - 1)
            ≤ 2 ^ 53 * 2 ^ (n / 2 ^ 52 - 1) := Nat.mul_le_mul_right _ (by omega)
          _ = 2 ^ 52 * 2 ^ (n / 2 ^ 52 - 1 + 1) := by rw [Nat.pow_succ]; omega
          _ ≤ 2 ^ 52 * 2 ^ (n' / 2 ^ 52 - 1) :=
            Nat.mul_le_mul_left _ (Nat.pow_le_pow_right (by decide) (by omega))
          _ ≤ (2 ^ 52 + n' % 2 ^ 52) * 2 ^ (n' / 2 ^ 52 - 1) := Nat.mul_le_mul_right _ (by omega)

/-- A double is the nearest one to itself. -/
theorem nearestBits_units {u : UnpackedFloat} {n : Nat} (h : Stands u n) :
    nearestBits (units n) = n := by
  cases h with
  | zero sign => exact nearestBits_zero
  | infinity n infinite =>
      -- the bits of infinity are one step above those of the greatest finite double
      obtain ⟨k, rfl⟩ : ∃ k, n = k * 2 ^ 52 + 2 ^ 52 := ⟨2046, by unfold infinityBits at infinite; omega⟩
      rw [units_finite (by omega) (.inr le_rfl),
        nearestBits_finite (by omega) (by omega) (.inr le_rfl)]
      exact min_eq_right infinite.le
  | finite m k pos narrow normal bounded =>
      rw [units_finite narrow normal, nearestBits_finite pos narrow normal]
      exact min_eq_right (by unfold infinityBits; omega)

/-- Significands of doubles are compared after the exponents, and so are their bits. -/
theorem compare_bits {m k m' k' : Nat} (narrow : m < 2 ^ 53) (normal : k = 0 ∨ 2 ^ 52 ≤ m)
    (narrow' : m' < 2 ^ 53) (normal' : k' = 0 ∨ 2 ^ 52 ≤ m') :
    (compare ((k : Int) - 1074) (k' - 1074)).then (compare m m') =
      compare (k * 2 ^ 52 + m) (k' * 2 ^ 52 + m') := by
  rcases lt_trichotomy k k' with less | rfl | greater
  · rw [compare_lt_iff_lt.2 (show (k : Int) - 1074 < k' - 1074 by omega),
      compare_lt_iff_lt.2 (show k * 2 ^ 52 + m < k' * 2 ^ 52 + m' by omega)]
    rfl
  · have same : compare ((k : Int) - 1074) (k - 1074) = .eq := compare_eq_iff_eq.2 rfl
    rw [same]
    rcases lt_trichotomy m m' with less | rfl | greater
    · rw [compare_lt_iff_lt.2 less, compare_lt_iff_lt.2 (by omega)]
      rfl
    · simp
    · rw [compare_gt_iff_gt.2 greater, compare_gt_iff_gt.2 (by omega)]
      rfl
  · rw [compare_gt_iff_gt.2 (show (k' : Int) - 1074 < k - 1074 by omega),
      compare_gt_iff_gt.2 (show k' * 2 ^ 52 + m' < k * 2 ^ 52 + m by omega)]
    rfl

/-- Doubles that are no less than zero are in the order of their bits. -/
theorem compare_of_stands {u v : UnpackedFloat} {n n' : Nat} (h : Stands u n) (h' : Stands v n') :
    u.compare v = some (compare n n') := by
  cases h with
  | zero sign =>
      cases h' with
      | zero sign' => rfl
      | infinity n' infinite' =>
          rw [compare_lt_iff_lt.2 (show 0 < n' by unfold infinityBits at infinite'; omega)]
          rfl
      | finite m' k' pos' narrow' normal' bounded' =>
          rw [compare_lt_iff_lt.2 (show 0 < k' * 2 ^ 52 + m' by omega)]
          rfl
  | infinity n infinite =>
      unfold infinityBits at infinite
      cases h' with
      | zero sign' =>
          rw [compare_gt_iff_gt.2 (show 0 < n by omega)]
          rfl
      | infinity n' infinite' =>
          rw [infinite, infinite', infinityBits, compare_eq_iff_eq.2 rfl]
          rfl
      | finite m' k' pos' narrow' normal' bounded' =>
          rw [compare_gt_iff_gt.2 (show k' * 2 ^ 52 + m' < n by omega)]
          rfl
  | finite m k pos narrow normal bounded =>
      cases h' with
      | zero sign' =>
          rw [compare_gt_iff_gt.2 (show 0 < k * 2 ^ 52 + m by omega)]
          rfl
      | infinity n' infinite' =>
          unfold infinityBits at infinite'
          rw [compare_lt_iff_lt.2 (show k * 2 ^ 52 + m < n' by omega)]
          rfl
      | finite m' k' pos' narrow' normal' bounded' =>
          exact congrArg some (compare_bits narrow normal narrow' normal')

/-- The sign a double has by its bits. -/
def signOf (b : BitVec Format.binary64.numBits) : Sign :=
  Sign.ofBitVec (UnpackedFloat.unpackSign b)

theorem signOf_eq (b : BitVec Format.binary64.numBits) :
    signOf b = if b.toNat / 2 ^ 63 = 0 then .positive else .negative := by
  have bits : (UnpackedFloat.unpackSign b).toNat = b.toNat / 2 ^ 63 := (unpack_toNat b).2.2
  rw [← bits, signOf, Sign.ofBitVec]
  refine if_congr ⟨fun h => congrArg BitVec.toNat h, fun h => BitVec.eq_of_toNat_eq h⟩ rfl rfl

theorem finite_congr {sign : Sign} {m m' : Nat} {e e' : Int} {pos : 0 < m} {pos' : 0 < m'}
    (significand : m = m') (exponent : e = e') :
    UnpackedFloat.finite sign m e pos = .finite sign m' e' pos' := by
  subst significand exponent
  rfl

/-- The bits of a double without its sign say what it stands for. -/
theorem unpack_cases (b : BitVec Format.binary64.numBits) :
    (b.toNat % 2 ^ 63 = infinityBits ∧ unpack Format.binary64 b = .infinity (signOf b)) ∨
    (infinityBits < b.toNat % 2 ^ 63 ∧ unpack Format.binary64 b = .notANumber) ∨
    (b.toNat % 2 ^ 63 = 0 ∧ unpack Format.binary64 b = .zero (signOf b)) ∨
    ∃ (m k : Nat) (pos : 0 < m), m < 2 ^ 53 ∧ (k = 0 ∨ 2 ^ 52 ≤ m) ∧ k < 2046 ∧
      b.toNat % 2 ^ 63 = k * 2 ^ 52 + m ∧
      unpack Format.binary64 b = .finite (signOf b) m ((k : Int) - 1074) pos := by
  obtain ⟨mantissa, exponent, -⟩ := unpack_toNat b
  simp only [Nat.pow_eq] at mantissa exponent
  have bits : b.toNat % 2 ^ 63 = (unpackExponent b).toNat * 2 ^ 52 + (unpackMantissa b).toNat := by
    omega
  have small : (unpackMantissa b).toNat < 2 ^ 52 := (unpackMantissa b).isLt
  have bounded : (unpackExponent b).toNat < 2 ^ 11 := (unpackExponent b).isLt
  rw [bits, infinityBits]
  unfold UnpackedFloat.unpack
  by_cases infinite : unpackExponent b = -1#_
  · have all : (unpackExponent b).toNat = 2047 := congrArg BitVec.toNat infinite
    by_cases none_left : unpackMantissa b = 0#_
    · have zero : (unpackMantissa b).toNat = 0 := congrArg BitVec.toNat none_left
      exact .inl ⟨by omega, by rw [if_pos infinite, if_pos none_left]; rfl⟩
    · have pos : (unpackMantissa b).toNat ≠ 0 := fun h => none_left (BitVec.eq_of_toNat_eq h)
      exact .inr (.inl ⟨by omega, by rw [if_pos infinite, if_neg none_left]⟩)
  · have other : (unpackExponent b).toNat ≠ 2047 := fun h => infinite (BitVec.eq_of_toNat_eq h)
    refine .inr (.inr ?_)
    by_cases subnormal : unpackExponent b = 0#_
    · have low : (unpackExponent b).toNat = 0 := congrArg BitVec.toNat subnormal
      by_cases none_left : unpackMantissa b = 0#_
      · have zero : (unpackMantissa b).toNat = 0 := congrArg BitVec.toNat none_left
        refine .inl ⟨by omega, ?_⟩
        rw [if_neg infinite, if_pos subnormal, dif_pos none_left]
        rfl
      · have pos : (unpackMantissa b).toNat ≠ 0 := fun h => none_left (BitVec.eq_of_toNat_eq h)
        refine .inr ⟨(unpackMantissa b).toNat, 0, by omega, by omega, .inl rfl, by omega, by omega, ?_⟩
        rw [if_neg infinite, if_pos subnormal, dif_neg none_left]
        exact finite_congr rfl (by rw [low]; rfl)
    · have pos : (unpackExponent b).toNat ≠ 0 := fun h => subnormal (BitVec.eq_of_toNat_eq h)
      have whole : (1#1 ++ unpackMantissa b).toNat = 2 ^ 52 + (unpackMantissa b).toNat := by
        rw [BitVec.toNat_append, ← Nat.shiftLeft_add_eq_or_of_lt small, Nat.shiftLeft_eq]
        rfl
      refine .inr ⟨2 ^ 52 + (unpackMantissa b).toNat, (unpackExponent b).toNat - 1, by omega,
        by omega, .inr (by omega), by omega, by omega, ?_⟩
      have exponent : ((unpackExponent b).toNat : Int) -
          ((Format.binary64.exponentBias : Int) + Format.binary64.mantissaBitsWithoutImplicit) =
            ((unpackExponent b).toNat - 1 : Nat) - 1074 := by
        change _ - ((1023 : Int) + 52) = _
        omega
      rw [if_neg infinite, if_neg subnormal]
      exact finite_congr whole exponent

/-- The bits of a double that is no less than zero say what it stands for. -/
theorem stands_unpack {b : BitVec Format.binary64.numBits} (number : b.toNat % 2 ^ 63 ≤ infinityBits)
    (sign : b.toNat / 2 ^ 63 = 0 ∨ b.toNat % 2 ^ 63 = 0) :
    Stands (UnpackedFloat.unpack Format.binary64 b) (b.toNat % 2 ^ 63) := by
  have positive (h : b.toNat % 2 ^ 63 ≠ 0) : signOf b = .positive := by
    rw [signOf_eq, if_pos (sign.resolve_right h)]
  rcases unpack_cases b with ⟨bits, heq⟩ | ⟨large, -⟩ | ⟨bits, heq⟩ |
    ⟨m, k, pos, narrow, normal, bounded, bits, heq⟩
  · rw [heq, positive (by rw [bits]; decide)]
    exact .infinity _ bits
  · omega
  · rw [heq, bits]
    exact .zero _
  · rw [heq, positive (by omega), bits]
    exact .finite m k pos narrow normal bounded

/-! ## Sums -/

/-- What is packed stands for a number of units that was rounded, less the sign of a zero. -/
def PacksTo (u : UnpackedFloat) (n : Nat) : Prop :=
  (UnpackedFloat.pack Format.binary64 u).toNat % 2 ^ 63 = nearestBits n ∧
    ((UnpackedFloat.pack Format.binary64 u).toNat / 2 ^ 63 = 0 ∨ nearestBits n = 0)

theorem PacksTo.of_toNat {u : UnpackedFloat} {n : Nat}
    (h : (UnpackedFloat.pack Format.binary64 u).toNat = nearestBits n) : PacksTo u n := by
  have bounded : nearestBits n ≤ infinityBits := min_le_left _ _
  unfold infinityBits at bounded
  rw [PacksTo, h]
  omega


/-- A double that is no less than zero is packed back into its bits. -/
theorem packsTo_units {u : UnpackedFloat} {n : Nat} (h : Stands u n) : PacksTo u (units n) := by
  cases h with
  | zero sign =>
      have nothing : nearestBits (units 0) = 0 := nearestBits_units (.zero sign)
      rw [PacksTo, nothing]
      cases sign with
      | positive => decide
      | negative => decide
  | infinity n infinite =>
      refine .of_toNat ?_
      rw [nearestBits_units (.infinity n infinite), infinite]
      rfl
  | finite m k pos narrow normal bounded =>
      refine .of_toNat ?_
      rw [pack_finite pos narrow normal, units_finite narrow normal,
        nearestBits_finite pos narrow normal]

/-- Whatever is too large becomes infinity. -/
theorem packsTo_infinity {n total : Nat} (infinite : n = infinityBits) (large : units n ≤ total) :
    PacksTo (.infinity .positive) total := by
  have bits := packsTo_units (.infinity n infinite)
  have most : nearestBits total ≤ infinityBits := min_le_left _ _
  have least := nearestBits_mono large
  have self := nearestBits_units (.infinity n infinite)
  rw [PacksTo, self] at bits
  rwa [PacksTo, show nearestBits total = n by omega]

theorem units_zero : units 0 = 0 := rfl

/-- To add zero changes nothing but the sign of a zero. -/
theorem packsTo_add_zero {u : UnpackedFloat} {n : Nat} (h : Stands u n) (sign : Sign) :
    PacksTo (UnpackedFloat.add Format.binary64 u (.zero sign)) (units n) ∧
      PacksTo (UnpackedFloat.add Format.binary64 (.zero sign) u) (units n) := by
  have zeros (first second : Sign) :
      PacksTo (UnpackedFloat.add Format.binary64 (.zero first) (.zero second)) (units 0) := by
    change PacksTo (if first == second then .zero first else .zero .positive) (units 0)
    split
    · exact packsTo_units (.zero first)
    · exact packsTo_units (.zero .positive)
  have self := packsTo_units h
  cases h with
  | zero sign' => exact ⟨zeros sign' sign, zeros sign sign'⟩
  | infinity n infinite => exact ⟨self, self⟩
  | finite m k pos narrow normal bounded => exact ⟨self, self⟩

/-- To add infinity gives infinity. -/
theorem packsTo_add_infinity {u : UnpackedFloat} {n n' total : Nat} (h : Stands u n)
    (infinite : n' = infinityBits) (large : units n' ≤ total) :
    PacksTo (UnpackedFloat.add Format.binary64 u (.infinity .positive)) total ∧
      PacksTo (UnpackedFloat.add Format.binary64 (.infinity .positive) u) total := by
  have self := packsTo_infinity infinite large
  cases h <;> exact ⟨self, self⟩

theorem normalize_pos {n : Nat} (pos : 0 < n) (e : Int) :
    UnpackedFloat.normalize Format.binary64 n e .positive =
      UnpackedFloat.round Format.binary64 .positive n e := by
  have greater : compare (n : Int) 0 = .gt := compare_gt_iff_gt.2 (by omega)
  rw [UnpackedFloat.normalize, greater]
  rfl

/-- The sum of finite doubles is aligned to the smaller exponent and rounded. -/
theorem add_finite {m k m' k' : Nat} (pos : 0 < m) (pos' : 0 < m') :
    UnpackedFloat.add Format.binary64 (.finite .positive m (k - 1074) pos)
        (.finite .positive m' (k' - 1074) pos') =
      UnpackedFloat.round Format.binary64 .positive (m * 2 ^ (k - min k k') + m' * 2 ^ (k' - min k k'))
        ((min k k' : Nat) - 1074) := by
  have least : min ((k : Int) - 1074) (k' - 1074) = ((min k k' : Nat) : Int) - 1074 := by omega
  have shift : ((k : Int) - 1074 - ((min k k' : Nat) - 1074)).toNat = k - min k k' := by omega
  have shift' : ((k' : Int) - 1074 - ((min k k' : Nat) - 1074)).toNat = k' - min k k' := by omega
  have positive : 0 < m * 2 ^ (k - min k k') + m' * 2 ^ (k' - min k k') :=
    Nat.add_pos_left (Nat.mul_pos pos (Nat.two_pow_pos _)) _
  change UnpackedFloat.normalize _ (((m <<< Int.toNat _ : Nat) : Int) + (m' <<< Int.toNat _ : Nat))
    (min _ _) .positive = _
  rw [← normalize_pos positive, Int.natCast_add, least, shift, shift', Nat.shiftLeft_eq,
    Nat.shiftLeft_eq]

theorem aligned (m : Nat) {k i : Nat} (le : k ≤ i) : m * 2 ^ (i - k) * 2 ^ k = m * 2 ^ i := by
  rw [Nat.mul_assoc, ← Nat.pow_add, Nat.sub_add_cancel le]

theorem packsTo_add_finite {m k m' k' : Nat} (pos : 0 < m) (pos' : 0 < m') :
    PacksTo (UnpackedFloat.add Format.binary64 (.finite .positive m (k - 1074) pos)
        (.finite .positive m' (k' - 1074) pos')) (m * 2 ^ k + m' * 2 ^ k') := by
  refine .of_toNat ?_
  rw [add_finite pos pos', pack_round (Nat.add_pos_left (Nat.mul_pos pos (Nat.two_pow_pos _)) _),
    Nat.add_mul, aligned m (min_le_left _ _), aligned m' (min_le_right _ _)]

/-- A sum is the exact sum, rounded. -/
theorem packsTo_add {u v : UnpackedFloat} {n n' : Nat} (h : Stands u n) (h' : Stands v n') :
    PacksTo (UnpackedFloat.add Format.binary64 u v) (units n + units n') := by
  have whole := h
  cases h with
  | zero sign =>
      rw [units_zero, Nat.zero_add]
      exact (packsTo_add_zero h' sign).2
  | infinity n infinite => exact (packsTo_add_infinity h' infinite (Nat.le_add_right _ _)).2
  | finite m k pos narrow normal bounded =>
      cases h' with
      | zero sign' =>
          rw [units_zero, Nat.add_zero]
          exact (packsTo_add_zero whole sign').1
      | infinity n' infinite' => exact (packsTo_add_infinity whole infinite' (Nat.le_add_left _ _)).1
      | finite m' k' pos' narrow' normal' bounded' =>
          rw [units_finite narrow normal, units_finite narrow' normal']
          exact packsTo_add_finite pos pos'

/-! ## Differences -/

/-- What is below zero, or minus zero, or no number. -/
def IsMinus : UnpackedFloat → Prop
  | .notANumber => True
  | .zero sign | .infinity sign | .finite sign _ _ _ => sign = .negative

/-- The bits of what is packed from below zero are those from above it, and the sign. -/
theorem packComponents_negative_toNat (exponent : BitVec 11) (mantissa : BitVec 52) :
    (packComponents Format.binary64 .negative exponent mantissa).toNat =
      (2 ^ 11 + exponent.toNat) * 2 ^ 52 + mantissa.toNat := by
  have low := mantissa.isLt
  have signed : (Sign.negative.toBitVec ++ exponent).toNat = 2 ^ 11 + exponent.toNat := by
    rw [Sign.toBitVec, BitVec.toNat_append, ← Nat.shiftLeft_add_eq_or_of_lt exponent.isLt,
      Nat.shiftLeft_eq]
    rfl
  rw [packComponents]
  change ((Sign.negative.toBitVec ++ exponent) ++ mantissa).toNat = _
  rw [BitVec.toNat_append, signed, ← Nat.shiftLeft_add_eq_or_of_lt low, Nat.shiftLeft_eq]

/-- What is packed from below zero has its sign. -/
theorem signOf_packComponents (exponent : BitVec 11) (mantissa : BitVec 52) :
    signOf (packComponents Format.binary64 .negative exponent mantissa) = .negative := by
  rw [signOf_eq, packComponents_negative_toNat, if_neg (by omega)]

/-- Below zero, a finite number is packed as above it, with the sign. -/
theorem pack_negative {m : Nat} (e : Int) (pos : 0 < m) :
    (UnpackedFloat.pack Format.binary64 (.finite .negative m e pos)).toNat =
      2 ^ 63 + (UnpackedFloat.pack Format.binary64 (.finite .positive m e pos)).toNat := by
  rw [pack_of_finite, pack_of_finite]
  split
  · decide
  · split
    · rw [packComponents_toNat, packComponents_negative_toNat]
      omega
    · rw [packComponents_toNat, packComponents_negative_toNat]
      omega

/-- What has a minus sign is no more than zero. -/
theorem not_lt_of_signOf {b : BitVec Format.binary64.numBits} (negative : signOf b = .negative) :
    UnpackedFloat.compare (.zero .positive) (UnpackedFloat.unpack Format.binary64 b) ≠ some .lt := by
  intro less
  rcases unpack_cases b with ⟨-, heq⟩ | ⟨-, heq⟩ | ⟨-, heq⟩ | ⟨m, k, pos, -, -, -, -, heq⟩
  · rw [heq, negative] at less
    cases less
  · rw [heq] at less
    cases less
  · rw [heq] at less
    cases less
  · rw [heq, negative] at less
    cases less

/-- What is below zero is no more than zero when it is packed. -/
theorem IsMinus.not_lt {u : UnpackedFloat} (h : IsMinus u) :
    UnpackedFloat.compare (.zero .positive)
      (UnpackedFloat.unpack Format.binary64 (UnpackedFloat.pack Format.binary64 u)) ≠ some .lt := by
  cases u with
  | notANumber =>
      intro less
      cases less
  | zero sign =>
      obtain rfl : sign = .negative := h
      exact not_lt_of_signOf (signOf_packComponents _ _)
  | infinity sign =>
      obtain rfl : sign = .negative := h
      exact not_lt_of_signOf (signOf_packComponents _ _)
  | finite sign m e pos =>
      obtain rfl : sign = .negative := h
      refine not_lt_of_signOf ?_
      rw [pack_of_finite]
      split
      · exact signOf_packComponents _ _
      · split
        · exact signOf_packComponents _ _
        · exact signOf_packComponents _ _

theorem isMinus_roundWithAccuracy (m : Nat) (e : Int) (accuracy : Accuracy) :
    IsMinus (roundWithAccuracy Format.binary64 .negative m e accuracy) := by
  rcases roundWithAccuracy_cases .negative m e accuracy with zero | ⟨m', e', pos, finite⟩
  · rw [zero]
    rfl
  · rw [finite]
    rfl

/-- The difference of finite doubles is aligned to the smaller exponent and rounded, if it is positive. -/
theorem sub_finite {m k m' k' : Nat} (pos : 0 < m) (pos' : 0 < m') :
    let w := UnpackedFloat.sub Format.binary64 (.finite .positive m (k - 1074) pos)
      (.finite .positive m' (k' - 1074) pos')
    (m * 2 ^ k < m' * 2 ^ k' ∧ IsMinus w) ∨ PacksTo w (m * 2 ^ k - m' * 2 ^ k') := by
  intro w
  have least : min ((k : Int) - 1074) (k' - 1074) = ((min k k' : Nat) : Int) - 1074 := by omega
  have shift : ((k : Int) - 1074 - ((min k k' : Nat) - 1074)).toNat = k - min k k' := by omega
  have shift' : ((k' : Int) - 1074 - ((min k k' : Nat) - 1074)).toNat = k' - min k k' := by omega
  have hw : w = UnpackedFloat.normalize Format.binary64
      ((m * 2 ^ (k - min k k') : Nat) - (m' * 2 ^ (k' - min k k') : Nat)) ((min k k' : Nat) - 1074)
      .positive := by
    change UnpackedFloat.normalize _ (((m <<< Int.toNat _ : Nat) : Int) - (m' <<< Int.toNat _ : Nat))
      (min _ _) .positive = _
    rw [least, shift, shift', Nat.shiftLeft_eq, Nat.shiftLeft_eq]
  rw [hw, ← aligned m (min_le_left k k'), ← aligned m' (min_le_right k k')]
  generalize m * 2 ^ (k - min k k') = a
  generalize m' * 2 ^ (k' - min k k') = a'
  rcases lt_trichotomy a a' with less | rfl | greater
  · refine .inl ⟨Nat.mul_lt_mul_of_pos_right less (Nat.two_pow_pos _), ?_⟩
    rw [UnpackedFloat.normalize, compare_lt_iff_lt.2 (show (a : Int) - a' < 0 by omega)]
    exact isMinus_roundWithAccuracy _ _ _
  · have zero := packsTo_units (.zero .positive)
    rw [units_zero] at zero
    rw [UnpackedFloat.normalize, compare_eq_iff_eq.2 (Int.sub_self _), Nat.sub_self]
    exact .inr zero
  · refine .inr (.of_toNat ?_)
    rw [show (a : Int) - a' = (a - a' : Nat) by omega, normalize_pos (by omega),
      pack_round (by omega), Nat.sub_mul]

/-- A difference is the exact difference, rounded, or it is not above zero. -/
theorem sub_of_stands {u v : UnpackedFloat} {n n' : Nat} (h : Stands u n) (h' : Stands v n')
    (finite : n ≠ infinityBits) (finite' : n' ≠ infinityBits) :
    (units n ≤ units n' ∧ IsMinus (UnpackedFloat.sub Format.binary64 u v)) ∨
      PacksTo (UnpackedFloat.sub Format.binary64 u v) (units n - units n') := by
  have whole := h
  cases h' with
  | infinity n' infinite' => exact absurd infinite' finite'
  | zero sign' =>
      refine .inr ?_
      rw [units_zero, Nat.sub_zero]
      cases h with
      | infinity n infinite => exact absurd infinite finite
      | zero sign =>
          change PacksTo (if sign == -sign' then .zero sign else .zero .positive) (units 0)
          split
          · exact packsTo_units (.zero sign)
          · exact packsTo_units (.zero .positive)
      | finite m k pos narrow normal bounded => exact packsTo_units whole
  | finite m' k' pos' narrow' normal' bounded' =>
      cases h with
      | infinity n infinite => exact absurd infinite finite
      | zero sign =>
          rw [units_zero]
          exact .inl ⟨Nat.zero_le _, rfl⟩
      | finite m k pos narrow normal bounded =>
          rw [units_finite narrow normal, units_finite narrow' normal']
          rcases sub_finite pos pos' with ⟨less, minus⟩ | packed
          · exact .inl ⟨less.le, minus⟩
          · exact .inr packed

/-- The bits of what is left of a number when another one is taken off. -/
def excess (n n' : Nat) : Nat :=
  if n' = infinityBits then 0
  else if n = infinityBits then infinityBits
  else nearestBits (units n - units n')

theorem Stands.eq_infinity {u : UnpackedFloat} {n : Nat} (h : Stands u n)
    (infinite : n = infinityBits) : u = .infinity .positive := by
  unfold infinityBits at infinite
  cases h with
  | infinity n _ => rfl
  | zero sign => omega
  | finite m k pos narrow normal bounded => omega

/-- Nothing is left of a difference, or it is what is left, rounded. -/
theorem sub_cases {u v : UnpackedFloat} {n n' : Nat} (h : Stands u n) (h' : Stands v n') :
    (IsMinus (UnpackedFloat.sub Format.binary64 u v) ∧ excess n n' = 0) ∨
      ∃ total, PacksTo (UnpackedFloat.sub Format.binary64 u v) total ∧
        nearestBits total = excess n n' := by
  by_cases infinite' : n' = infinityBits
  · obtain rfl := h'.eq_infinity infinite'
    have nothing : excess n n' = 0 := if_pos infinite'
    cases h with
    | infinity n _ => exact .inl ⟨trivial, nothing⟩
    | zero sign => exact .inl ⟨rfl, nothing⟩
    | finite m k pos narrow normal bounded => exact .inl ⟨rfl, nothing⟩
  · by_cases infinite : n = infinityBits
    · have whole := packsTo_units h
      have bits := nearestBits_units h
      have left : excess n n' = n := by rw [excess, if_neg infinite', if_pos infinite, infinite]
      obtain rfl := h.eq_infinity infinite
      rw [left]
      refine .inr ⟨units n, ?_, bits⟩
      cases h' with
      | infinity n' infinite => exact absurd infinite infinite'
      | zero sign' => exact whole
      | finite m' k' pos' narrow' normal' bounded' => exact whole
    · rw [excess, if_neg infinite', if_neg infinite]
      rcases sub_of_stands h h' infinite infinite' with ⟨less, minus⟩ | packs
      · rw [Nat.sub_eq_zero_of_le less]
        exact .inl ⟨minus, nearestBits_zero⟩
      · exact .inr ⟨_, packs, rfl⟩

/-- More is left of a greater number. -/
theorem excess_mono {n m n' : Nat} (h : n ≤ m) (bounded : m ≤ infinityBits) :
    excess n n' ≤ excess m n' := by
  unfold excess
  split
  · exact le_rfl
  · split
    · rename_i infinite
      rw [if_pos (le_antisymm bounded (infinite ▸ h))]
    · split
      · exact min_le_left _ _
      · exact nearestBits_mono (Nat.sub_le_sub_right (units_mono h) _)

end Combo.Number
