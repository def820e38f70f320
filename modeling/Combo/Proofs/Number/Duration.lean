-- SUMMARY: Doubles that are no positive numbers are no lengths but zero, so the lower bound on what an action waits changes nothing.
import Mathlib.Tactic.ByContra
import Combo.Action.Group
import Combo.Number.Duration

/-!
# Durations that are not positive

A length is bounded below by zero before it becomes a duration. To say that this
changes no duration, the order of doubles has to be read off their bits: a double
without a sign whose significand is not zero is greater than zero.
-/

namespace Combo

namespace Number

open Float.Model

/-- The fields of a double, as numbers. -/
theorem unpack_toNat (b : BitVec Format.binary64.numBits) :
    (UnpackedFloat.unpackMantissa b).toNat = b.toNat % Nat.pow 2 52 ∧
    (UnpackedFloat.unpackExponent b).toNat = b.toNat / Nat.pow 2 52 % Nat.pow 2 11 ∧
    (UnpackedFloat.unpackSign b).toNat = b.toNat / Nat.pow 2 63 := by
  refine ⟨?_, ?_, ?_⟩
  · simp [UnpackedFloat.unpackMantissa]
  · simp [UnpackedFloat.unpackExponent, Nat.shiftRight_eq_div_pow]
  · have small : b.toNat < 2 ^ 64 := b.isLt
    have sign : (UnpackedFloat.unpackSign b).toNat = (b.extractLsb 63 63).toNat := rfl
    rw [sign]
    simp [Nat.shiftRight_eq_div_pow]
    omega

/-- Bits without a sign that stand for a number other than zero stand for a positive number. -/
theorem compare_unpack {b : BitVec Format.binary64.numBits}
    (unsigned : b.toNat / Nat.pow 2 63 ≠ 1)
    (finite : b.toNat / Nat.pow 2 52 % Nat.pow 2 11 ≠ 2047)
    (nonzero : b.toNat / Nat.pow 2 52 % Nat.pow 2 11 = 0 → b.toNat % Nat.pow 2 52 ≠ 0) :
    UnpackedFloat.compare (.zero .positive) (UnpackedFloat.unpack Format.binary64 b) = some .lt := by
  obtain ⟨mantissa, exponent, sign⟩ := unpack_toNat b
  rw [← exponent] at finite nonzero
  rw [← mantissa] at nonzero
  rw [← sign] at unsigned
  have positive : UnpackedFloat.unpackSign b = BitVec.ofNat 1 0 := by
    have small := (UnpackedFloat.unpackSign b).isLt
    refine BitVec.eq_of_toNat_eq ?_
    rw [BitVec.toNat_ofNat]
    omega
  have numeric : UnpackedFloat.unpackExponent b ≠ -BitVec.ofNat Format.binary64.exponentBits 1 := by
    intro h
    exact finite (congrArg BitVec.toNat h)
  delta UnpackedFloat.unpack
  rw [positive]
  dsimp only
  rw [if_neg numeric]
  by_cases subnormal : UnpackedFloat.unpackExponent b = BitVec.ofNat Format.binary64.exponentBits 0
  · have significand : UnpackedFloat.unpackMantissa b ≠
        BitVec.ofNat Format.binary64.mantissaBitsWithoutImplicit 0 := by
      intro h
      exact nonzero (congrArg BitVec.toNat subnormal) (congrArg BitVec.toNat h)
    rw [if_pos subnormal, dif_neg significand]
    rfl
  · rw [if_neg subnormal]
    rfl

/-- A double with a positive significand and no sign is greater than zero. -/
theorem zero_lt_of_parts {x : Float} {m : Nat} {e : Int}
    (parts : Parts.ofDouble x = .finite false m e) (pos : m ≠ 0) : 0.0 < x := by
  have positive : UnpackedFloat.compare (.zero .positive) x.toModel.unpack = some .lt := by
    simp only [Parts.ofDouble] at parts
    split at parts
    · split at parts <;> cases parts
    · rename_i finite
      split at parts
      · injection parts with sign significand
        have unsigned : x.toBits.toNat / Nat.pow 2 63 ≠ 1 := by simpa using sign
        exact compare_unpack unsigned finite fun _ h => pos (significand.symm.trans h)
      · rename_i normal
        injection parts with sign
        have unsigned : x.toBits.toNat / Nat.pow 2 63 ≠ 1 := by simpa using sign
        exact compare_unpack unsigned finite fun h => absurd h normal
  have less : (UnpackedFloat.compare (.zero .positive) x.toModel.unpack == some .lt) = true := by
    rw [positive]
    rfl
  exact decide_eq_true (p := (0.0 : Float).toModel < x.toModel) less

theorem roundScaled_zero (tie : Tie) (e : Int) (scale : Nat) : roundScaled tie 0 e scale = 0 := by
  unfold roundScaled
  split
  · simp
  · rename_i k
    simp [roundDiv]

end Number

/-- A duration that is not positive is zero. -/
theorem Duration.nanos?_of_not_pos {x : Float} {n : Nat} (h : nanos? x = some n)
    (not_pos : ¬ 0.0 < x) : n = 0 := by
  unfold nanos? at h
  split at h
  · rename_i negative m e parts
    split at h
    · cases h
    · rename_i positive
      have significand : m = 0 := by
        by_contra hm
        cases negative with
        | true => simp [hm] at positive
        | false => exact not_pos (Number.zero_lt_of_parts parts hm)
      simp only [significand, Number.roundScaled_zero] at h
      split at h
      · exact (Option.some.inj h).symm
      · cases h
  · cases h
  · cases h

/-- The lower bound on a length changes no duration. -/
theorem Duration.nanosOrZero_longer (x : Float) :
    nanosOrZero (longer 0.0 x) = nanosOrZero x := by
  unfold longer
  split
  · rfl
  · rename_i not_pos
    have none_left : nanosOrZero 0.0 = 0 := by decide +kernel
    rw [none_left, nanosOrZero]
    cases h : nanos? x with
    | none => rfl
    | some n => exact (nanos?_of_not_pos h not_pos).symm

end Combo
