-- SUMMARY: Numerals with a point: the text of a numeral around a double is read as that double, with either sign.
import Combo.Proofs.Number.Shortest

/-!
# Numerals with a point

The shortest numeral of a double is written out with a point, or gets one with a zero
behind it. Read back, such a text is a whole number over a power of ten; the guards of the
reader do not cut it off, and what is around a double becomes that double.
-/

namespace Combo.Number

open Float.Model Float.Model.UnpackedFloat

/-! ## Digits -/

theorem isDigit_of_digitsFrom? {l : List Char} {acc n : ℕ} (h : digitsFrom? acc l = some n) :
    ∀ c ∈ l, (decide ('0' ≤ c) && decide (c ≤ '9')) = true := by
  induction l generalizing acc with
  | nil => simp
  | cons c l ih =>
      obtain ⟨d, digit, rest⟩ := Option.bind_eq_some_iff.1 h
      intro b member
      rcases List.mem_cons.1 member with rfl | later
      · unfold digit? at digit
        split at digit
        · rename_i range
          simpa using range
        · cases digit
      · exact ih rest b later

/-- A row of digits before something else is taken whole. -/
theorem takeDigits_append {l : List Char} {acc n : ℕ} (h : digitsFrom? acc l = some n) {r : List Char}
    (stop : ∀ c ∈ r.head?, (decide ('0' ≤ c) && decide (c ≤ '9')) = false) :
    takeDigits (l ++ r) = (l, r) := by
  have digits := isDigit_of_digitsFrom? h
  rw [takeDigits, List.span_eq_takeWhile_dropWhile, List.takeWhile_append_of_pos digits,
    List.dropWhile_append_of_pos digits]
  cases r with
  | nil => simp
  | cons c r => simp [stop c rfl]

theorem digitsFrom?_append {acc n : ℕ} {l r : List Char} (h : digitsFrom? acc (l ++ r) = some n) :
    ∃ m, digitsFrom? acc l = some m ∧ digitsFrom? m r = some n := by
  induction l generalizing acc with
  | nil => exact ⟨acc, rfl, h⟩
  | cons c l ih =>
      obtain ⟨d, digit, rest⟩ := Option.bind_eq_some_iff.1 h
      obtain ⟨m, front, back⟩ := ih rest
      exact ⟨m, by rw [digitsFrom?, digit]; exact front, back⟩

/-- Zeros at the end are powers of ten. -/
theorem digitsFrom?_append_zeros {acc n : ℕ} {l : List Char} (h : digitsFrom? acc l = some n) (z : ℕ) :
    digitsFrom? acc (l ++ List.replicate z '0') = some (n * 10 ^ z) := by
  have zero : digit? '0' = some 0 := by decide
  induction z with
  | zero => simpa using h
  | succ z ih =>
      rw [List.replicate_succ', ← List.append_assoc, digitsFrom?_append_singleton, ih, zero]
      simp only [Option.bind_some, Option.map_some, Option.some.injEq, pow_succ]
      ring

/-- The text of a positive number begins with no zero. -/
theorem decimal_lead {n : ℕ} (pos : 0 < n) : ∃ c r, decimal n = c :: r ∧ c ≠ '0' := by
  induction n using decimal.induct with
  | case1 n small =>
      rw [decimal, if_pos small]
      refine ⟨_, [], rfl, ?_⟩
      have all : ∀ d : Fin 10, 0 < d.val → Char.ofNat (d.val + 48) ≠ '0' := by decide
      exact all ⟨n, small⟩ pos
  | case2 n large ih =>
      obtain ⟨c, r, front, lead⟩ := ih (by omega)
      rw [decimal, if_neg large, front]
      exact ⟨c, _, rfl, lead⟩

/-- Without its zeros in front, a row of digits is the text of its number. -/
theorem significant_of_digits {l : List Char} {n : ℕ} (h : digitsFrom? 0 l = some n) :
    l.dropWhile (· == '0') = if n = 0 then [] else decimal n := by
  obtain ⟨z, rfl⟩ := eq_zeros_append_decimal h
  rw [List.dropWhile_append_of_pos (by simp [List.mem_replicate])]
  split
  · rfl
  · rename_i nonzero
    obtain ⟨c, r, text, lead⟩ := decimal_lead (Nat.pos_of_ne_zero nonzero)
    rw [text, List.dropWhile_cons_of_neg (by simpa using lead)]

/-! ## Texts with a point -/

/-- A whole part without superfluous zeros and a fraction, whose digits together are a number. -/
structure IsPointed (whole fraction : List Char) (n : ℕ) : Prop where
  digits : digitsFrom? 0 (whole ++ fraction) = some n
  lead : whole = ['0'] ∨ ∃ c r, whole = c :: r ∧ c ≠ '0'
  some : fraction ≠ []

/-- The text begins with a digit. -/
theorem IsPointed.exists_head {whole fraction : List Char} {n : ℕ} (h : IsPointed whole fraction n) :
    ∃ c r, whole = c :: r ∧ (decide ('0' ≤ c) && decide (c ≤ '9')) = true := by
  have digits := isDigit_of_digitsFrom? h.digits
  obtain rfl | ⟨c, r, rfl, -⟩ := h.lead
  · exact ⟨'0', [], rfl, by decide⟩
  · exact ⟨c, r, rfl, digits c (by simp)⟩

/-- No text that begins with a digit is one of the words for infinity and for no number. -/
theorem toLower_of_isDigit {c : Char} (h : (decide ('0' ≤ c) && decide (c ≤ '9')) = true) :
    c.toLower ≠ 'i' ∧ c.toLower ≠ 'n' := by
  rw [Bool.and_eq_true, decide_eq_true_iff, decide_eq_true_iff] at h
  have digit : digit? c = Option.some (c.toNat - '0'.toNat) := if_pos h
  obtain ⟨small, text⟩ := digit?_eq_some digit
  have all : ∀ d : Fin 10, (Char.ofNat (d.val + 48)).toLower ≠ 'i' ∧
      (Char.ofNat (d.val + 48)).toLower ≠ 'n' := by decide
  rw [text]
  exact all ⟨_, small⟩

/-- A text with a point is read as its digits over a power of ten. -/
theorem IsPointed.magnitude? {whole fraction : List Char} {n : ℕ} (h : IsPointed whole fraction n) :
    magnitude? (whole ++ '.' :: fraction) =
      Option.some (ofDecimal n (if n = 0 then [] else decimal n).length (-(fraction.length : ℤ))) := by
  obtain ⟨c, r, begins, digit⟩ := h.exists_head
  obtain ⟨no_i, no_n⟩ := toLower_of_isDigit digit
  obtain ⟨m, front, back⟩ := digitsFrom?_append h.digits
  have taken : takeDigits (whole ++ '.' :: fraction) = (whole, '.' :: fraction) :=
    takeDigits_append front (by simp)
  have taken' : takeDigits fraction = (fraction, []) := by
    simpa using takeDigits_append (r := []) back (by simp)
  have value := h.digits
  have significant := significant_of_digits value
  have read : digitsFrom? 0 (if n = 0 then [] else decimal n) = Option.some n := by
    split
    · rename_i zero
      rw [zero]
      rfl
    · exact digitsFrom?_decimal n
  have words : ¬ ((whole ++ '.' :: fraction).map Char.toLower = "inf".toList ∨
      (whole ++ '.' :: fraction).map Char.toLower = "infinity".toList) ∧
      ¬ (whole ++ '.' :: fraction).map Char.toLower = "nan".toList := by
    rw [begins]
    simp [no_i, no_n]
  have full : ¬ (whole.isEmpty && fraction.isEmpty) = true := by
    rw [begins]
    simp
  unfold Number.magnitude?
  simp only [if_neg words.1, if_neg words.2, taken, taken', if_neg full, significant, exponent?, read,
    Option.bind_eq_bind, Option.bind_some, zero_sub]
  rfl

/-! ## Reading back -/

/-- What is around a double is below ten to 309, and twice that is above ten to minus 324. -/
theorem IsAround.size {m k : ℕ} {q : ℚ} (around : IsAround m k (q / unit)) (pos : 0 < m)
    (narrow : m < 2 ^ 53) (bounded : k < 2046) : q < 10 ^ 309 ∧ 1 ≤ 2 * q * 10 ^ 324 := by
  obtain ⟨low, high, -⟩ := around.bounds pos
  have one : (1 : ℚ) ≤ m := by exact_mod_cast pos
  have short : (m : ℚ) + 1 ≤ 2 ^ 53 := by exact_mod_cast narrow
  have scaled : q / unit / 2 ^ k = q / 2 ^ ((k : ℤ) - 1074) := by
    rw [two_zpow_sub, div_div, mul_comm]
  have scale : (0 : ℚ) < 2 ^ ((k : ℤ) - 1074) := zpow_pos two_pos _
  rw [scaled, div_le_iff₀ scale] at high
  rw [scaled, le_div_iff₀ scale] at low
  constructor
  · have widest : (2 : ℚ) ^ ((k : ℤ) - 1074) ≤ 2 ^ 971 := by
      rw [← zpow_natCast]
      exact zpow_le_zpow_right₀ one_le_two (by omega)
    have power : (2 : ℚ) ^ 1024 ≤ 10 ^ 309 := by
      have natural : 2 ^ 1024 ≤ 10 ^ 309 := by decide +kernel
      exact_mod_cast natural
    calc q ≤ (m + 1 / 2) * 2 ^ ((k : ℤ) - 1074) := high
      _ < 2 ^ 53 * 2 ^ ((k : ℤ) - 1074) := by gcongr; linarith
      _ ≤ 2 ^ 53 * 2 ^ 971 := by gcongr
      _ = 2 ^ 1024 := (pow_add 2 53 971).symm
      _ ≤ 10 ^ 309 := power
  · have narrowest : ((2 : ℚ) ^ 1074)⁻¹ ≤ 2 ^ ((k : ℤ) - 1074) := by
      rw [← zpow_natCast, ← zpow_neg]
      exact zpow_le_zpow_right₀ one_le_two (by omega)
    have power : (2 : ℚ) ^ 1074 ≤ 10 ^ 324 := by
      have natural : 2 ^ 1074 ≤ 10 ^ 324 := by decide +kernel
      exact_mod_cast natural
    calc (1 : ℚ) = ((2 : ℚ) ^ 1074)⁻¹ * 2 ^ 1074 := (inv_mul_cancel₀ (pow_ne_zero _ two_ne_zero)).symm
      _ ≤ 2 ^ ((k : ℤ) - 1074) * 10 ^ 324 :=
          mul_le_mul narrowest power (pow_nonneg zero_le_two _) scale.le
      _ ≤ 2 * q * 10 ^ 324 := by gcongr; nlinarith

/-- What is around a double is within the guards of the reader. -/
theorem IsAround.within {m k n f : ℕ} (around : IsAround m k ((n : ℚ) / 10 ^ f / unit)) (pos : 0 < m)
    (narrow : m < 2 ^ 53) (bounded : k < 2046) (some : 0 < n) :
    ((decimal n).length : ℤ) - f ≤ 310 ∧ -330 ≤ ((decimal n).length : ℤ) - f ∧
      f ≤ 2 ^ 11 + n.log2 := by
  obtain ⟨below, above⟩ := around.size pos narrow bounded
  obtain ⟨most, least, -⟩ := decimal_bounds n
  have least := least some
  have ten : (0 : ℚ) < 10 ^ f := by positivity
  rw [div_lt_iff₀ ten, ← pow_add] at below
  rw [← mul_div_assoc, div_mul_eq_mul_div, le_div_iff₀ ten, one_mul] at above
  generalize (decimal n).length = l at *
  have digits : l - 1 ≤ n.log2 := by
    rw [Nat.le_log2 some.ne']
    exact le_trans (Nat.pow_le_pow_left (by decide) _) least
  have upper : l - 1 < 309 + f := by
    refine (Nat.pow_lt_pow_iff_right (a := 10) (by decide)).1 (lt_of_le_of_lt least ?_)
    exact_mod_cast below
  have lower : f < l + 1 + 324 := by
    refine (Nat.pow_lt_pow_iff_right (a := 10) (by decide)).1 ?_
    have number : (n : ℚ) < 10 ^ l := by exact_mod_cast most
    have exact : (10 : ℚ) ^ f < 10 ^ (l + 1 + 324) := by
      calc (10 : ℚ) ^ f ≤ 2 * n * 10 ^ 324 := above
        _ < 10 * 10 ^ l * 10 ^ 324 := by gcongr; norm_num
        _ = 10 ^ (l + 1 + 324) := by rw [pow_add, pow_succ' _ l]
    exact_mod_cast exact
  omega

/-- A text with a point whose number is around a double is read as that double. -/
theorem IsPointed.reads {whole fraction : List Char} {m k n : ℕ} (h : IsPointed whole fraction n)
    (some : 0 < n) (around : IsAround m k ((n : ℚ) / 10 ^ fraction.length / unit)) (pos : 0 < m)
    (narrow : m < 2 ^ 53) (normal : k = 0 ∨ 2 ^ 52 ≤ m) (bounded : k < 2046) :
    ∃ y, Number.magnitude? (whole ++ '.' :: fraction) = Option.some y ∧ IsLength y ∧
      magnitude y = k * 2 ^ 52 + m := by
  obtain ⟨below, above, exponent⟩ := around.within pos narrow bounded some
  have point : 0 < fraction.length := List.length_pos_iff.2 h.some
  obtain ⟨length, nearest⟩ := isNearestDouble_ofScientific some point exponent
  have exact := around.bits pos narrow normal bounded nearest
  refine ⟨_, ?_, length, exact⟩
  obtain ⟨f, hf⟩ : ∃ f, fraction.length = f + 1 := ⟨_, (Nat.succ_pred_eq_of_pos point).symm⟩
  rw [h.magnitude?, if_neg some.ne', ofDecimal.eq_def, if_neg some.ne', if_neg (by omega),
    if_neg (by omega), hf]
  rfl

/-- The numeral that a text with a point is made from. -/
theorem Numeral.exists_pointed {x : Numeral} (pos : 0 < x.digits) :
    ∃ whole fraction n, IsPointed whole fraction n ∧ 0 < n ∧ (n : ℚ) / 10 ^ fraction.length = x.value ∧
      x.positional ++ (if 0 ≤ x.power then ['.', '0'] else []) = whole ++ '.' :: fraction := by
  obtain ⟨ds, power⟩ := x
  have read := digitsFrom?_decimal ds
  obtain ⟨c, r, text, lead⟩ := decimal_lead pos
  cases power with
  | ofNat k =>
      refine ⟨decimal ds ++ List.replicate k '0', ['0'], ds * 10 ^ k * 10 ^ 1, ⟨?_, .inr ?_, by simp⟩,
        by positivity, ?_, rfl⟩
      · exact digitsFrom?_append_zeros (digitsFrom?_append_zeros read k) 1
      · exact ⟨c, _, by rw [text]; rfl, lead⟩
      · simp [Numeral.value]
  | negSucc k =>
      have scaled : (ds : ℚ) / 10 ^ (k + 1) = Numeral.value ⟨ds, .negSucc k⟩ := by
        rw [Numeral.value, zpow_negSucc, div_eq_mul_inv]
      simp only [Numeral.positional, if_neg (Int.negSucc_lt_zero k).not_ge, List.append_nil]
      split
      · rename_i short
        refine ⟨_, _, ds, ⟨by rwa [List.take_append_drop], .inr ?_, ?_⟩, pos, ?_, rfl⟩
        · obtain ⟨l, hl⟩ : ∃ l, (decimal ds).length - (k + 1) = l + 1 :=
            ⟨_, (Nat.succ_pred_eq_of_pos (by omega)).symm⟩
          exact ⟨c, r.take l, by rw [hl, text, List.take_succ_cons], lead⟩
        · rw [ne_eq, List.drop_eq_nil_iff]
          omega
        · rw [List.length_drop, show (decimal ds).length - ((decimal ds).length - (k + 1)) = k + 1 by omega,
            scaled]
      · rename_i long
        refine ⟨['0'], _, ds, ⟨?_, .inl rfl, ?_⟩, pos, ?_, rfl⟩
        · exact (digitsFrom?_zeros (k + 1 - (decimal ds).length + 1) _).trans read
        · rw [text]
          simp
        · rw [List.length_append, List.length_replicate,
            show k + 1 - (decimal ds).length + (decimal ds).length = k + 1 by omega, scaled]

/-! ## Signs -/

/-- The opposite of a finite double without a sign has its bits, and the sign. -/
theorem toBits_neg {y : Float} (unsigned : y.toBits.toNat / 2 ^ 63 = 0)
    (finite : magnitude y < infinityBits) : (-y).toBits.toNat = 2 ^ 63 + y.toBits.toNat := by
  rcases Nat.eq_zero_or_pos (magnitude y) with zero | pos
  · obtain rfl : y = 0.0 := eq_of_magnitude unsigned rfl (zero.trans magnitude_zero.symm)
    rfl
  · have stands := IsLength.stands ⟨finite.le, .inl unsigned⟩
    have opposite : (-y).toBits.toNat =
        (UnpackedFloat.pack Format.binary64 y.toModel.unpack.neg).toNat := rfl
    have bits : y.toBits.toNat = magnitude y := by
      unfold magnitude
      omega
    rw [opposite, bits]
    generalize y.toModel.unpack = u at stands
    generalize magnitude y = n at *
    cases stands with
    | zero sign => omega
    | infinity n infinite => omega
    | finite m k some narrow normal bounded =>
        change (UnpackedFloat.pack _ (.finite .negative m (k - 1074) some)).toNat = _
        rw [pack_negative, pack_finite some narrow normal, min_eq_right finite.le]

/-- Only one row of bits is no number. -/
theorem eq_nan_of_bits {x : Float} (above : infinityBits < magnitude x) : x = 0.0 / 0.0 := by
  have nan : (0.0 / 0.0 : Float).toBits.toNat = (packedNaN Format.binary64).toNat := rfl
  have unique := x.toModel.valid.eq_packedNaN
  have bits : x.toModel.toBits.toBitVec.toNat = x.toBits.toNat := rfl
  obtain ⟨mantissa, exponent, -⟩ := unpack_toNat x.toModel.toBits.toBitVec
  unfold magnitude infinityBits at above
  refine eq_of_toBits (Eq.trans ?_ nan.symm)
  rw [← bits] at above ⊢
  generalize (x.toModel.toBits.toBitVec : BitVec Format.binary64.numBits) = b at *
  have top : b.toNat < 2 ^ 64 := b.isLt
  simp only [Nat.pow_eq] at mantissa exponent
  refine congrArg BitVec.toNat (unique ?_ fun zero => ?_)
  · refine BitVec.eq_of_toNat_eq (exponent.trans ?_)
    change _ = 2047
    omega
  · rw [zero] at mantissa
    change 0 = _ at mantissa
    omega

/-- A double is finite, infinite with either sign, or no number. -/
theorem finite_or_special (x : Float) : (magnitude x < infinityBits ∧ x.isNaN = false) ∨
    x = 1.0 / 0.0 ∨ x = -(1.0 / 0.0) ∨ x = 0.0 / 0.0 := by
  have top : x.toBits.toNat < 2 ^ 64 := x.toBits.toNat_lt
  have infinity : (1.0 / 0.0 : Float).toBits.toNat = infinityBits := rfl
  have opposite : (-(1.0 / 0.0) : Float).toBits.toNat = 2 ^ 63 + infinityBits := rfl
  have number (h : x.toModel.unpack ≠ .notANumber) : x.isNaN = false := by
    change x.toModel.unpack.isNaN = false
    generalize x.toModel.unpack = u at h
    cases u with
    | notANumber => exact absurd rfl h
    | zero sign => rfl
    | infinity sign => rfl
    | finite sign m e pos => rfl
  rcases unpack_cases x.toModel.toBits.toBitVec with ⟨bits, -⟩ | ⟨bits, -⟩ | ⟨bits, heq⟩ |
    ⟨m, k, pos, narrow, normal, bounded, bits, heq⟩
  · have bits : x.toBits.toNat % 2 ^ 63 = infinityBits := bits
    rcases Nat.lt_or_ge x.toBits.toNat (2 ^ 63) with positive | negative
    · exact .inr (.inl (eq_of_toBits (by omega)))
    · exact .inr (.inr (.inl (eq_of_toBits (by omega))))
  · exact .inr (.inr (.inr (eq_nan_of_bits bits)))
  · have bits : magnitude x = 0 := bits
    have other : x.toModel.unpack ≠ .notANumber := by
      rw [Float.Model.unpack, heq]
      intro same
      cases same
    exact .inl ⟨by rw [bits]; decide, number other⟩
  · have bits : magnitude x = k * 2 ^ 52 + m := bits
    have other : x.toModel.unpack ≠ .notANumber := by
      rw [Float.Model.unpack, heq]
      intro same
      cases same
    exact .inl ⟨by unfold infinityBits; omega, number other⟩

/-- No finite double is infinity. -/
theorem not_beq_infinity {x : Float} (finite : magnitude x < infinityBits) : (x == 1.0 / 0.0) = false := by
  change x.toModel.unpack.beq (1.0 / 0.0 : Float).toModel.unpack = false
  have infinity : (1.0 / 0.0 : Float).toModel.unpack = .infinity .positive := rfl
  rw [infinity, Float.Model.unpack]
  change x.toModel.toBits.toBitVec.toNat % 2 ^ 63 < infinityBits at finite
  rcases unpack_cases x.toModel.toBits.toBitVec with ⟨bits, -⟩ | ⟨bits, -⟩ | ⟨-, heq⟩ |
    ⟨m, k, pos, -, -, -, -, heq⟩
  · omega
  · omega
  · rw [heq]
    rfl
  · rw [heq]
    rfl

end Combo.Number
