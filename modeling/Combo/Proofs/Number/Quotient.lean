-- SUMMARY: Quotients of doubles are correctly rounded: the significand and its accuracy tell enough of the exact quotient.
import Combo.Proofs.Number.Exact
import Combo.Proofs.Number.NearestEven

/-!
# Correctly rounded quotients

A quotient is cut off, with a note of how what was cut off compares to a half. Shifting
out more bits keeps the note right, so what is rounded in the end is the exact quotient.
`IsNearestDouble` says so of the bits of a double: they have the exponent of the exact
number, and the significand nearest to it.
-/

namespace Combo.Number

open Float.Model Float.Model.UnpackedFloat

/-! ## Numbers with bits shifted out -/

/-- A significand with its tail says where a number is: at a multiple of a half, or between two. -/
def IsCut (n : ℕ) (q : ℚ) : Prop :=
  if n % 2 = 0 then 4 * q = n else (n : ℚ) - 1 < 4 * q ∧ 4 * q < n + 1

/-- The four tails a significand can have. -/
theorem isCut_tail (j : ℕ) (q : ℚ) :
    (IsCut (4 * j) q ↔ q = j) ∧ (IsCut (4 * j + 1) q ↔ (j : ℚ) < q ∧ q < j + 1 / 2) ∧
      (IsCut (4 * j + 2) q ↔ q = j + 1 / 2) ∧
      (IsCut (4 * j + 3) q ↔ (j : ℚ) + 1 / 2 < q ∧ q < j + 1) := by
  have parity : 4 * j % 2 = 0 ∧ (4 * j + 1) % 2 = 1 ∧ (4 * j + 2) % 2 = 0 ∧ (4 * j + 3) % 2 = 1 := by
    omega
  obtain ⟨zero, one, two, three⟩ := parity
  simp only [IsCut, zero, one, two, three, if_true, one_ne_zero, if_false]
  push_cast
  refine ⟨⟨fun h => ?_, fun h => ?_⟩, ⟨fun h => ⟨?_, ?_⟩, fun h => ⟨?_, ?_⟩⟩,
    ⟨fun h => ?_, fun h => ?_⟩, ⟨fun h => ⟨?_, ?_⟩, fun h => ⟨?_, ?_⟩⟩⟩ <;> linarith

theorem exists_tail (n : ℕ) : ∃ j, n = 4 * j ∨ n = 4 * j + 1 ∨ n = 4 * j + 2 ∨ n = 4 * j + 3 :=
  ⟨n / 4, by omega⟩

theorem halved_tail (j : ℕ) : halved (4 * j) = 2 * j ∧ halved (4 * j + 1) = 2 * j + 1 ∧
    halved (4 * j + 2) = 2 * j + 1 ∧ halved (4 * j + 3) = 2 * j + 1 := by
  unfold halved
  omega

theorem settled_tail (j : ℕ) : settled (4 * j) = j ∧ settled (4 * j + 1) = j ∧
    settled (4 * j + 2) = j + j % 2 ∧ settled (4 * j + 3) = j + 1 := by
  unfold settled
  refine ⟨?_, ?_, ?_, ?_⟩ <;> split <;> omega

/-- The tail stays right when one more bit is shifted out. -/
theorem IsCut.halved {n : ℕ} {q : ℚ} (h : IsCut n q) : IsCut (halved n) (q / 2) := by
  obtain ⟨j, cases⟩ := exists_tail n
  obtain ⟨zero, one, two, three⟩ := isCut_tail j q
  obtain ⟨zero', one', two', three'⟩ := halved_tail j
  have even : 2 * j % 2 = 0 := by omega
  have odd : ¬ (2 * j + 1) % 2 = 0 := by omega
  rcases cases with rfl | rfl | rfl | rfl
  · rw [zero] at h
    rw [zero', IsCut, if_pos even]
    push_cast
    linarith
  · rw [one] at h
    rw [one', IsCut, if_neg odd]
    push_cast
    constructor <;> linarith
  · rw [two] at h
    rw [two', IsCut, if_neg odd]
    push_cast
    constructor <;> linarith
  · rw [three] at h
    rw [three', IsCut, if_neg odd]
    push_cast
    constructor <;> linarith

/-- What the tail is settled to is the nearest whole number. -/
theorem IsCut.isNearestEven {n : ℕ} {q : ℚ} (h : IsCut n q) : IsNearestEven q (settled n) := by
  obtain ⟨j, cases⟩ := exists_tail n
  obtain ⟨zero, one, two, three⟩ := isCut_tail j q
  obtain ⟨zero', one', two', three'⟩ := settled_tail j
  rcases cases with rfl | rfl | rfl | rfl
  · rw [zero] at h
    rw [zero', h]
    exact isNearestEven_natCast j
  · rw [one] at h
    rw [one', IsNearestEven, abs_of_pos (by linarith)]
    exact ⟨by linarith, fun tie => absurd tie (by linarith)⟩
  · rw [two] at h
    rw [two', h]
    rcases Nat.mod_two_eq_zero_or_one j with even | odd
    · rw [even, IsNearestEven, Nat.add_zero, add_sub_cancel_left]
      exact ⟨by norm_num, fun _ => Nat.even_iff.2 even⟩
    · rw [odd, IsNearestEven]
      push_cast
      rw [add_sub_add_left_eq_sub]
      exact ⟨by norm_num, fun _ => (Nat.odd_iff.2 odd).add_one⟩
  · rw [three] at h
    rw [three', IsNearestEven]
    push_cast
    rw [abs_of_neg (by linarith)]
    exact ⟨by linarith, fun tie => absurd tie (by linarith)⟩

/-- The accuracy of a quotient says how what was cut off compares to a half. -/
theorem isCut_quotient {b : ℕ} (pos : 0 < b) (a : ℕ) :
    IsCut (withTail (.ofMantissaAndAccuracy (a / b) (accuracyOfFraction (a % b) b))) ((a : ℚ) / b) := by
  obtain ⟨t, parts, start, rest, none_left, below, above⟩ := exists_fraction pos a
  obtain ⟨zero, one, two, three⟩ := isCut_tail (a / b) ((a / b : ℕ) + t)
  rw [parts]
  generalize a / b = j at *
  generalize a % b = r at *
  unfold accuracyOfFraction
  split
  · rename_i nothing
    exact zero.2 (by rw [none_left.1 nothing, add_zero])
  · rename_i something
    have positive : 0 < t := lt_of_le_of_ne start fun h => something (none_left.2 h.symm)
    rcases lt_trichotomy (2 * r) b with less | half | more
    · rw [compare_lt_iff_lt.2 less]
      exact one.2 ⟨by linarith, by linarith [below.1 less]⟩
    · rw [compare_eq_iff_eq.2 half]
      have low := not_lt.1 (mt below.2 (by omega))
      have high := not_lt.1 (mt above.2 (by omega))
      exact two.2 (by linarith)
    · rw [compare_gt_iff_gt.2 more]
      exact three.2 ⟨by linarith [above.1 more], by linarith⟩

/-- However many bits are shifted out, what is rounded is the exact quotient. -/
theorem isNearestEven_shifted {em : ExtendedMantissa} {q : ℚ} (h : IsCut (withTail em) q) (s : ℕ) :
    IsNearestEven (q / 2 ^ s) (Nat.repeat ExtendedMantissa.shiftRightOne s em).roundedMantissa := by
  have cut : IsCut (withTail (Nat.repeat ExtendedMantissa.shiftRightOne s em)) (q / 2 ^ s) := by
    induction s with
    | zero => simpa [Nat.repeat] using h
    | succ s ih =>
        rw [Nat.repeat, withTail_shiftRightOne, pow_succ, ← div_div]
        exact ih.halved
  rw [roundedMantissa_eq]
  exact cut.isNearestEven

/-! ## The nearest double -/

/-- The bits of the double nearest to so many units: those of its exponent and its significand. -/
def IsNearestDouble (q : ℚ) (bits : ℕ) : Prop :=
  ∃ k r : ℕ, (k = 0 ∨ 2 ^ 52 ≤ q / 2 ^ k) ∧ q / 2 ^ k < 2 ^ 53 ∧ IsNearestEven (q / 2 ^ k) r ∧
    bits = min infinityBits (k * 2 ^ 52 + r)

theorem IsNearestDouble.le_infinityBits {q : ℚ} {bits : ℕ} (h : IsNearestDouble q bits) :
    bits ≤ infinityBits := by
  obtain ⟨k, r, -, -, -, rfl⟩ := h
  exact min_le_left _ _

/-- A quotient lies between the powers of two around its whole part. -/
theorem quotient_bounds {b : ℕ} (pos : 0 < b) (a : ℕ) :
    (a : ℚ) / b < 2 ^ ((a / b).log2 + 1) ∧ (a / b ≠ 0 → 2 ^ (a / b).log2 ≤ (a : ℚ) / b) := by
  obtain ⟨t, parts, start, rest, -⟩ := exists_fraction pos a
  rw [parts]
  constructor
  · have above : ((a / b + 1 : ℕ) : ℚ) ≤ ((2 ^ ((a / b).log2 + 1) : ℕ) : ℚ) :=
      Nat.cast_le.2 Nat.lt_log2_self
    push_cast at above
    linarith
  · intro nonzero
    have below : ((2 ^ (a / b).log2 : ℕ) : ℚ) ≤ (a / b : ℕ) := Nat.cast_le.2 (Nat.log2_self_le nonzero)
    push_cast at below
    linarith

/-- A quotient with enough bits becomes the nearest double. -/
theorem isNearestDouble_quotient {a b : ℕ} (pos : 0 < b) {e : ℤ}
    (enough : e ≤ -1074 ∨ 52 ≤ (a / b).log2) :
    IsNearestDouble ((a : ℚ) / b * 2 ^ (e + 1074))
      (UnpackedFloat.pack Format.binary64 (roundWithAccuracy Format.binary64 .positive (a / b) e
        (accuracyOfFraction (a % b) b))).toNat := by
  obtain ⟨k, hk⟩ : ∃ k : ℕ, (k : ℤ) = max ((a / b).log2 + 1 + e - 53) (-1074) + 1074 :=
    ⟨(max ((a / b).log2 + 1 + e - 53) (-1074) + 1074).toNat, by omega⟩
  obtain ⟨s, hs⟩ : ∃ s : ℕ, (s : ℤ) = k - 1074 - e := ⟨(k - 1074 - e).toNat, by omega⟩
  obtain ⟨r, hr⟩ : ∃ r, (Nat.repeat ExtendedMantissa.shiftRightOne s (.ofMantissaAndAccuracy (a / b)
    (accuracyOfFraction (a % b) b))).roundedMantissa = r := ⟨_, rfl⟩
  have exponent : e = k - 1074 - s := by omega
  have target : Format.binary64.targetExponent (totalExponent (a / b) ((k : ℤ) - 1074 - s)) =
      k - 1074 := by
    rw [← exponent, totalExponent]
    change max (((a / b).log2 : ℤ) + 1 + e - 53) (-1074) = _
    omega
  have shifted : (a : ℚ) / b * 2 ^ (e + 1074) / 2 ^ k = (a : ℚ) / b / 2 ^ s := by
    have powers : (2 : ℚ) ^ (e + 1074) * 2 ^ s = 2 ^ k := by
      rw [← zpow_natCast, ← zpow_natCast, ← zpow_add₀ two_ne_zero]
      congr 1
      omega
    rw [← powers, mul_comm _ ((2 : ℚ) ^ s), mul_div_mul_right _ _ (zpow_ne_zero _ two_ne_zero)]
  obtain ⟨high, low⟩ := quotient_bounds pos a
  have below : (a : ℚ) / b / 2 ^ s < 2 ^ 53 := by
    rw [div_lt_iff₀ (by positivity), ← pow_add]
    exact lt_of_lt_of_le high (pow_le_pow_right₀ one_le_two (by omega))
  have above : k = 0 ∨ 2 ^ 52 ≤ (a : ℚ) / b / 2 ^ s := by
    refine (Nat.eq_zero_or_pos k).imp_right fun positive => ?_
    rw [le_div_iff₀ (by positivity), ← pow_add]
    refine le_trans (pow_le_pow_right₀ one_le_two (by omega)) (low ?_)
    intro zero
    rw [zero] at hk enough
    simp at hk enough
    omega
  have nearest := isNearestEven_shifted (isCut_quotient pos a) s
  rw [hr] at nearest
  refine ⟨k, r, by rwa [shifted], by rwa [shifted], by rwa [shifted], ?_⟩
  rw [exponent]
  refine pack_roundWithAccuracy_of_bounds hr ?_ (above.imp_right fun least => ?_) target
  · exact nearest.mono (isNearestEven_natCast (2 ^ 53)) (by push_cast; exact below.le)
  · exact (isNearestEven_natCast (2 ^ 52)).mono nearest (by push_cast; exact least)

/-! ## Division -/

/-- The quotient of two positive numbers is the nearest double. -/
theorem isNearestDouble_pack_div {m m' : ℕ} (e e' : ℤ) (pos : 0 < m) (pos' : 0 < m') :
    IsNearestDouble ((m : ℚ) * 2 ^ e / (m' * 2 ^ e') / unit)
      (UnpackedFloat.pack Format.binary64 (UnpackedFloat.div Format.binary64
        (.finite .positive m e pos) (.finite .positive m' e' pos'))).toNat := by
  obtain ⟨scale, target, exponent, enough, bits, quotient⟩ :=
    exists_scaled_quotient e e' pos pos'
  have value : (m : ℚ) * 2 ^ e / (m' * 2 ^ e') / unit =
      ((m * 2 ^ scale : ℕ) : ℚ) / m' * 2 ^ (target + 1074) := by
    have powers : (2 : ℚ) ^ e / 2 ^ e' / unit = 2 ^ scale * 2 ^ (target + 1074) := by
      rw [unit, ← zpow_sub₀ two_ne_zero, ← zpow_sub₀ two_ne_zero, ← zpow_natCast,
        ← zpow_add₀ two_ne_zero]
      congr 1
      omega
    rw [mul_div_mul_comm, mul_div_assoc, powers]
    push_cast
    ring
  rw [quotient, value]
  refine isNearestDouble_quotient pos' (enough.imp_right fun wide => ?_)
  have bits := bits (by omega)
  have nonzero : m * 2 ^ scale / m' ≠ 0 := (lt_of_lt_of_le (Nat.two_pow_pos _) bits).ne'
  have log := (Nat.le_log2 nonzero).2 bits
  omega

/-- The quotient of two finite lengths, the second one positive, is the nearest double. -/
theorem IsLength.isNearestDouble_div {x y : Float} (hx : IsLength x) (hy : IsLength y)
    (finite : magnitude x < infinityBits) (finite' : magnitude y < infinityBits)
    (positive : 0 < magnitude x) (positive' : 0 < magnitude y) :
    IsNearestDouble ((units (magnitude x) : ℚ) / units (magnitude y) / unit)
      (magnitude (x / y)) := by
  have stands := hx.stands
  have stands' := hy.stands
  change IsNearestDouble _ ((UnpackedFloat.pack Format.binary64
    (UnpackedFloat.div Format.binary64 x.toModel.unpack y.toModel.unpack)).toNat % 2 ^ 63)
  generalize magnitude x = n at *
  generalize magnitude y = n' at *
  generalize x.toModel.unpack = u at *
  generalize y.toModel.unpack = v at *
  cases stands with
  | zero sign => omega
  | infinity n infinite => omega
  | finite m k pos narrow normal bounded =>
      cases stands' with
      | zero sign => omega
      | infinity n infinite => omega
      | finite m' k' pos' narrow' normal' bounded' =>
          have nearest := isNearestDouble_pack_div ((k : ℤ) - 1074) ((k' : ℤ) - 1074) pos pos'
          have bound := nearest.le_infinityBits
          unfold infinityBits at bound
          rw [Nat.mod_eq_of_lt (by omega), units_finite narrow normal, units_finite narrow' normal']
          rw [two_zpow_sub, two_zpow_sub, ← mul_assoc, ← mul_assoc,
            mul_div_mul_right _ _ unit_pos.ne'] at nearest
          rwa [Nat.cast_mul, Nat.cast_mul, Nat.cast_pow, Nat.cast_pow, Nat.cast_ofNat]

/-! ## Decimal fractions -/

/-- The powers of ten that are kept as doubles are exact. -/
theorem powersOfTen : ∀ e : Fin 23, ∀ x ∈ Float.exactlyRepresentablePowersOfTen[e.val]?,
    x.toBits.toNat / 2 ^ 63 = 0 ∧ magnitude x < infinityBits ∧
      units (magnitude x) = 10 ^ e.val * 2 ^ 1074 := by
  decide +kernel

/-- A whole number of at most 53 bits is a double. -/
theorem units_nearestBits {m : ℕ} (pos : 0 < m) (narrow : m < 2 ^ 53) :
    nearestBits (m * 2 ^ 1074) < infinityBits ∧ units (nearestBits (m * 2 ^ 1074)) = m * 2 ^ 1074 := by
  have short := (Nat.log2_lt pos.ne').2 narrow
  -- the significand is lengthened to 53 bits
  obtain ⟨d, hd⟩ : ∃ d, m.log2 + d = 52 := ⟨52 - m.log2, by omega⟩
  have log := log2_mul_two_pow pos d
  have low := Nat.log2_self_le (n := m * 2 ^ d) (by positivity)
  have high := Nat.lt_log2_self (n := m * 2 ^ d)
  rw [log, hd] at low high
  have same : m * 2 ^ 1074 = m * 2 ^ d * 2 ^ (1074 - d) := by
    rw [Nat.mul_assoc, ← Nat.pow_add]
    congr 2
    omega
  have bits := nearestBits_finite (k := 1074 - d) (by positivity) high (.inr low)
  have bounded : (1074 - d) * 2 ^ 52 + m * 2 ^ d < infinityBits := by
    unfold infinityBits
    omega
  rw [same, bits, min_eq_right bounded.le]
  exact ⟨bounded, units_finite high (.inr low)⟩

/-- A whole number of at most 53 bits as a double. -/
theorem toFloat_exact {m : ℕ} (pos : 0 < m) (narrow : m < 2 ^ 53) :
    IsLength m.toUInt64.toFloat ∧ magnitude m.toUInt64.toFloat < infinityBits ∧
      units (magnitude m.toUInt64.toFloat) = m * 2 ^ 1074 := by
  obtain ⟨finite, exact⟩ := units_nearestBits pos narrow
  rw [magnitude_toFloat pos (lt_trans narrow (by decide))]
  exact ⟨isLength_pack (isPlain_ofNat _), finite, exact⟩

theorem cast_mul_div_mul (a b : ℕ) {c : ℕ} (pos : 0 < c) :
    ((a * c : ℕ) : ℚ) / (b * c : ℕ) = a / (b : ℕ) := by
  rw [Nat.cast_mul, Nat.cast_mul, mul_div_mul_right _ _ (Nat.cast_ne_zero.2 pos.ne')]

theorem pos_of_units {n : ℕ} (h : 0 < units n) : 0 < n := by
  refine Nat.pos_of_ne_zero ?_
  rintro rfl
  exact absurd h (by decide)

/-- A decimal fraction is the quotient of two numbers that are exact. -/
theorem ofScientific_eq_div {m e : ℕ} (pos : 0 < m) (fraction : 0 < e) (bounded : e ≤ 2 ^ 11 + m.log2)
    (pos' : 0 < 10 ^ e) :
    UnpackedFloat.ofScientific Format.binary64 m (Int.negOfNat e) =
      UnpackedFloat.div Format.binary64 (.finite .positive m 0 pos) (.finite .positive (10 ^ e) 0 pos') := by
  have exponent : Int.negOfNat e = -(e : ℤ) := Int.negOfNat_eq
  have high : ¬ -(e : ℤ) > 2 ^ 11 := by omega
  have low : ¬ -(e : ℤ) < -(2 ^ 11 + m.log2) := by omega
  have divisor {k : ℕ} (power : k = e) (some : 0 < 10 ^ k) :
      UnpackedFloat.finite .positive (10 ^ k) 0 some = .finite .positive (10 ^ e) 0 pos' := by
    subst power
    rfl
  unfold UnpackedFloat.ofScientific
  rw [exponent, dif_neg pos.ne', if_neg high, if_neg low, if_neg (by omega)]
  exact congrArg (UnpackedFloat.div _ _) (divisor (by omega) _)

/-- A decimal fraction becomes the nearest double. -/
theorem isNearestDouble_ofScientific {m e : ℕ} (pos : 0 < m) (fraction : 0 < e)
    (bounded : e ≤ 2 ^ 11 + m.log2) :
    IsLength (Float.ofScientific m true e) ∧
      IsNearestDouble ((m : ℚ) / 10 ^ e / unit) (magnitude (Float.ofScientific m true e)) := by
  unfold Float.ofScientific
  split
  · rename_i small
    -- both numbers are exact, and so is their quotient until it is rounded
    obtain ⟨length, finite, exact⟩ := toFloat_exact pos small.1
    have kept : e < Float.exactlyRepresentablePowersOfTen.size :=
      Nat.lt_of_le_of_lt small.2 (by decide)
    obtain ⟨positive, finite', exact'⟩ := powersOfTen ⟨e, by omega⟩ _ (Array.getElem?_eq_getElem kept)
    have length' : IsLength (Float.exactlyRepresentablePowersOfTen[e]) := ⟨finite'.le, .inl positive⟩
    have above : 0 < magnitude m.toUInt64.toFloat := pos_of_units (by rw [exact]; positivity)
    have above' : 0 < magnitude Float.exactlyRepresentablePowersOfTen[e] :=
      pos_of_units (by rw [exact']; positivity)
    have nearest := length.isNearestDouble_div length' finite finite' above above'
    rw [exact, exact', cast_mul_div_mul _ _ (by positivity)] at nearest
    push_cast at nearest
    exact ⟨(length.mul_div length' above'.ne' finite'.ne).2, nearest⟩
  · refine ⟨isLength_pack (isPlain_ofScientific _ _), ?_⟩
    have pos' : 0 < 10 ^ e := by positivity
    have nearest := isNearestDouble_pack_div 0 0 pos pos'
    have bound := nearest.le_infinityBits
    rw [zpow_zero, mul_one, mul_one] at nearest
    unfold infinityBits at bound
    change IsNearestDouble _ ((UnpackedFloat.pack Format.binary64
      (UnpackedFloat.ofScientific Format.binary64 m (Int.negOfNat e))).toNat % 2 ^ 63)
    rw [ofScientific_eq_div pos fraction bounded pos', Nat.mod_eq_of_lt (by omega)]
    rwa [Nat.cast_pow, Nat.cast_ofNat] at nearest

end Combo.Number
