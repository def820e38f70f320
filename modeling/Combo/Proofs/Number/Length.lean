-- SUMMARY: Doubles that are no less than zero: their order is that of their bits, and sums and differences keep it.
import Mathlib.Data.List.Induction
import Mathlib.Tactic.ByContra
import Mathlib.Tactic.Push
import Combo.Action.Group
import Combo.Proofs.Number.Unpacked

/-!
# Lengths

A length in seconds is a double that is no less than zero; it may be a zero with
either sign or infinite, but it is a number. Lengths are in the order of their bits
without the sign, and each is a whole number of the smallest positive double. So a
sum of lengths is the exact sum, rounded, and grows with either of them.
-/

namespace Combo

namespace Number

open Float.Model Float.Model.UnpackedFloat

/-! ## The order of lengths -/

/-- The bits of a double without its sign. -/
def magnitude (x : Float) : Nat := x.toBits.toNat % 2 ^ 63

/-- A number that is no less than zero, if only because it is a zero. -/
structure IsLength (x : Float) : Prop where
  number : magnitude x ≤ infinityBits
  sign : x.toBits.toNat / 2 ^ 63 = 0 ∨ magnitude x = 0

theorem IsLength.stands {x : Float} (h : IsLength x) : Stands x.toModel.unpack (magnitude x) :=
  stands_unpack h.number h.sign

/-- A zero is a length, whatever its sign. -/
theorem isLength_of_magnitude {x : Float} (zero : magnitude x = 0) : IsLength x :=
  ⟨zero ▸ Nat.zero_le _, .inr zero⟩

/-- Infinity is a length, and so is what has no more bits. -/
theorem isLength_of_toBits {x : Float} (le : x.toBits.toNat ≤ infinityBits) : IsLength x := by
  unfold infinityBits at le
  refine ⟨?_, .inl (by omega)⟩
  unfold magnitude infinityBits
  omega

theorem lt_iff_compare (x y : Float) :
    x < y ↔ UnpackedFloat.compare x.toModel.unpack y.toModel.unpack = some .lt := by
  change decide (x.toModel < y.toModel) = true ↔ _
  rw [decide_eq_true_iff]
  change (UnpackedFloat.compare x.toModel.unpack y.toModel.unpack == some .lt) = true ↔ _
  exact beq_iff_eq

/-- Lengths are in the order of their bits. -/
theorem IsLength.lt_iff {x y : Float} (hx : IsLength x) (hy : IsLength y) :
    x < y ↔ magnitude x < magnitude y := by
  rw [lt_iff_compare, compare_of_stands hx.stands hy.stands, Option.some.injEq, compare_lt_iff_lt]

/-- Doubles are equal if their bits are. -/
theorem eq_of_toBits {x y : Float} (h : x.toBits.toNat = y.toBits.toNat) : x = y := by
  obtain ⟨⟨bx, vx⟩⟩ := x
  obtain ⟨⟨bh, vy⟩⟩ := y
  obtain rfl : bx = bh := UInt64.toNat_inj.1 h
  rfl

/-- Lengths with no sign are equal if their bits are. -/
theorem eq_of_magnitude {x y : Float} (hx : x.toBits.toNat / 2 ^ 63 = 0)
    (hy : y.toBits.toNat / 2 ^ 63 = 0) (h : magnitude x = magnitude y) : x = y := by
  rw [magnitude, magnitude] at h
  exact eq_of_toBits (by omega)

/-- A length that is greater than another one has no sign. -/
theorem IsLength.unsigned {x : Float} (hx : IsLength x) (pos : 0 < magnitude x) :
    x.toBits.toNat / 2 ^ 63 = 0 :=
  hx.sign.resolve_right pos.ne'

/-- The longer of two lengths. -/
theorem isLength_longer {x y : Float} (hx : IsLength x) (hy : IsLength y) :
    IsLength (longer x y) ∧ magnitude (longer x y) = max (magnitude x) (magnitude y) := by
  have order := hx.lt_iff hy
  unfold longer
  split
  · rename_i less
    exact ⟨hy, (max_eq_right (order.1 less).le).symm⟩
  · rename_i notLess
    exact ⟨hx, (max_eq_left (not_lt.1 (order.not.1 notLess))).symm⟩

theorem unsigned_longer {x y : Float} (hx : IsLength x) (hy : IsLength y)
    (unsigned : x.toBits.toNat / 2 ^ 63 = 0) : (longer x y).toBits.toNat / 2 ^ 63 = 0 := by
  unfold longer
  split
  · rename_i less
    exact hy.unsigned (Nat.zero_lt_of_lt ((hx.lt_iff hy).1 less))
  · exact unsigned

/-! ## Sums and differences -/

/-- What is packed from a whole number of units is a length. -/
theorem PacksTo.isLength {u : UnpackedFloat} {n : Nat} (h : PacksTo u n) :
    IsLength (.ofModel (.pack u)) ∧ magnitude (.ofModel (.pack u)) = nearestBits n := by
  obtain ⟨bits, sign⟩ := h
  have sum : magnitude (.ofModel (.pack u)) = nearestBits n := bits
  refine ⟨⟨?_, ?_⟩, sum⟩
  · rw [sum]
    exact min_le_left _ _
  · rw [sum]
    exact sign

/-- A sum of lengths is the exact sum, rounded. -/
theorem IsLength.add {x y : Float} (hx : IsLength x) (hy : IsLength y) :
    IsLength (x + y) ∧
      magnitude (x + y) = nearestBits (units (magnitude x) + units (magnitude y)) :=
  (packsTo_add hx.stands hy.stands).isLength

/-- A sum of lengths grows with its second term. -/
theorem IsLength.add_le_add {x y y' : Float} (hx : IsLength x) (hy : IsLength y)
    (hy' : IsLength y') (h : magnitude y ≤ magnitude y') : magnitude (x + y) ≤ magnitude (x + y') := by
  rw [(hx.add hy).2, (hx.add hy').2]
  exact nearestBits_mono (Nat.add_le_add_left (units_mono h) _)

/-- A sum of lengths is no less than its second term. -/
theorem IsLength.le_add {x y : Float} (hx : IsLength x) (hy : IsLength y) :
    magnitude y ≤ magnitude (x + y) := by
  rw [(hx.add hy).2]
  calc magnitude y = nearestBits (units (magnitude y)) := (nearestBits_units hy.stands).symm
    _ ≤ nearestBits (units (magnitude x) + units (magnitude y)) :=
      nearestBits_mono (Nat.le_add_left _ _)

/-- A sum of lengths is no less than its first term. -/
theorem IsLength.self_le_add {x y : Float} (hx : IsLength x) (hy : IsLength y) :
    magnitude x ≤ magnitude (x + y) := by
  rw [(hx.add hy).2]
  calc magnitude x = nearestBits (units (magnitude x)) := (nearestBits_units hx.stands).symm
    _ ≤ nearestBits (units (magnitude x) + units (magnitude y)) :=
      nearestBits_mono (Nat.le_add_right _ _)

theorem magnitude_zero : magnitude 0.0 = 0 := rfl

/-- Zero is a length. -/
theorem isLength_zero : IsLength 0.0 := isLength_of_magnitude magnitude_zero

/-- What is below zero counts as zero. -/
theorem longer_of_isMinus {u : UnpackedFloat} (h : IsMinus u) :
    longer 0.0 (.ofModel (.pack u)) = 0.0 := by
  refine if_neg fun less => h.not_lt ?_
  have zero : (0.0 : Float).toModel.unpack = .zero .positive := rfl
  rw [lt_iff_compare, zero] at less
  exact less

/-- What is left of a length, if anything is, is the exact difference, rounded. -/
theorem IsLength.sub {x y : Float} (hx : IsLength x) (hy : IsLength y) :
    IsLength (longer 0.0 (x - y)) ∧
      magnitude (longer 0.0 (x - y)) = excess (magnitude x) (magnitude y) := by
  have hdiff : x - y =
      .ofModel (.pack (UnpackedFloat.sub Format.binary64 x.toModel.unpack y.toModel.unpack)) := rfl
  rcases sub_cases hx.stands hy.stands with ⟨minus, nothing⟩ | ⟨total, packs, bits⟩
  · rw [hdiff, longer_of_isMinus minus, nothing]
    exact ⟨isLength_zero, magnitude_zero⟩
  · have both := isLength_longer isLength_zero packs.isLength.1
    rwa [magnitude_zero, Nat.zero_max, packs.isLength.2, bits, ← hdiff] at both

/-- More is left of a longer length. -/
theorem IsLength.sub_le_sub {x x' y : Float} (hx : IsLength x) (hx' : IsLength x')
    (hy : IsLength y) (h : magnitude x ≤ magnitude x') :
    magnitude (longer 0.0 (x - y)) ≤ magnitude (longer 0.0 (x' - y)) := by
  rw [(hx.sub hy).2, (hx'.sub hy).2]
  exact excess_mono h hx'.number

/-! ## Lengths that are computed -/

/-- A finite number that is not below zero is a length. -/
theorem isLength_of_finite {x : Float} (finite : x.isFinite = true) (h : ¬ x < 0.0) : IsLength x := by
  have zero : (0.0 : Float).toModel.unpack = .zero .positive := rfl
  rw [lt_iff_compare, zero] at h
  change x.toModel.unpack.isFinite = true at finite
  rw [Float.Model.unpack] at finite h
  have sign : signOf x.toModel.toBits.toBitVec =
      if x.toBits.toNat / 2 ^ 63 = 0 then .positive else .negative := signOf_eq _
  rcases unpack_cases x.toModel.toBits.toBitVec with ⟨-, heq⟩ | ⟨-, heq⟩ | ⟨bits, -⟩ |
    ⟨m, k, pos, narrow, normal, bounded, bits, heq⟩
  · rw [heq] at finite
    cases finite
  · rw [heq] at finite
    cases finite
  · exact ⟨bits.le.trans (Nat.zero_le _), .inr bits⟩
  · refine ⟨bits.le.trans (by unfold infinityBits; omega), .inl ?_⟩
    by_contra negative
    rw [if_neg negative] at sign
    rw [heq, sign] at h
    exact h rfl

/-- A number that is not below zero, whether its significand fits or not. -/
def IsPlain : UnpackedFloat → Prop
  | .notANumber => False
  | .zero _ => True
  | .infinity sign | .finite sign _ _ _ => sign = .positive

/-- What is packed without being below zero is a length. -/
theorem isLength_pack {u : UnpackedFloat} (h : IsPlain u) : IsLength (.ofModel (.pack u)) := by
  cases u with
  | notANumber => exact h.elim
  | zero sign => exact isLength_of_magnitude (by cases sign <;> rfl)
  | infinity sign =>
      obtain rfl : sign = .positive := h
      exact isLength_of_toBits (Nat.le_of_eq rfl)
  | finite sign m e pos =>
      obtain rfl : sign = .positive := h
      refine isLength_of_toBits ?_
      change (UnpackedFloat.pack Format.binary64 _).toNat ≤ _
      have small (b : BitVec 52) : b.toNat < 2 ^ 52 := b.isLt
      rw [pack_of_finite]
      split
      · exact Nat.le_of_eq rfl
      · rename_i bounded
        unfold infinityBits
        split
        · rw [packComponents_toNat, BitVec.toNat_ofNat]
          have fraction := small (BitVec.ofNat 52 m)
          omega
        · rw [packComponents_toNat]
          have fraction := small (BitVec.ofNat 52 m)
          simp only [BitVec.toNat_ofNat] at fraction ⊢
          omega

theorem isPlain_roundWithAccuracy (m : Nat) (e : Int) (accuracy : Accuracy) :
    IsPlain (roundWithAccuracy Format.binary64 .positive m e accuracy) := by
  rcases roundWithAccuracy_cases .positive m e accuracy with zero | ⟨m', e', pos, finite⟩
  · rw [zero]
    trivial
  · rw [finite]
    rfl

/-- Products and quotients of lengths with a positive number are lengths. -/
theorem IsLength.mul_div {x y : Float} (hx : IsLength x) (hy : IsLength y)
    (positive : magnitude y ≠ 0) (finite : magnitude y ≠ infinityBits) :
    IsLength (x * y) ∧ IsLength (x / y) := by
  have stands := hx.stands
  have other := hy.stands
  suffices h : IsPlain (UnpackedFloat.mul Format.binary64 x.toModel.unpack y.toModel.unpack) ∧
      IsPlain (UnpackedFloat.div Format.binary64 x.toModel.unpack y.toModel.unpack) from
    ⟨isLength_pack h.1, isLength_pack h.2⟩
  generalize magnitude x = n at stands
  generalize magnitude y = n' at *
  generalize x.toModel.unpack = u at *
  generalize y.toModel.unpack = v at *
  cases other with
  | zero sign' => exact absurd rfl positive
  | infinity n' infinite => exact absurd infinite finite
  | finite m' k' pos' narrow' normal' bounded' =>
      cases stands with
      | zero sign => exact ⟨trivial, trivial⟩
      | infinity n infinite => exact ⟨rfl, rfl⟩
      | finite m k pos narrow normal bounded =>
          exact ⟨isPlain_roundWithAccuracy _ _ _, isPlain_roundWithAccuracy _ _ _⟩

/-- Products and quotients of lengths with a positive number are lengths, by the bits of the number. -/
theorem IsLength.mul_div_of_toBits {x y : Float} {n : Nat} (hx : IsLength x) (bits : y.toBits.toNat = n)
    (positive : 0 < n) (finite : n < infinityBits) : IsLength (x * y) ∧ IsLength (x / y) := by
  subst bits
  have same : magnitude y = y.toBits.toNat := by
    unfold infinityBits at finite
    unfold magnitude
    omega
  exact hx.mul_div (isLength_of_toBits finite.le) (by omega) (by omega)

theorem isPlain_ofNat (n : Nat) : IsPlain (UnpackedFloat.ofNat Format.binary64 n) := by
  rcases n.eq_zero_or_pos with rfl | pos
  · trivial
  · rw [UnpackedFloat.ofNat, UnpackedFloat.ofInt, normalize_pos pos]
    exact isPlain_roundWithAccuracy _ _ _

theorem isPlain_ofScientific (m : Nat) (e : Int) :
    IsPlain (UnpackedFloat.ofScientific Format.binary64 m e) := by
  unfold UnpackedFloat.ofScientific
  by_cases zero : m = 0
  · rw [dif_pos zero]
    trivial
  · rw [dif_neg zero]
    by_cases large : e > 2 ^ 11
    · rw [if_pos large]
      rfl
    · rw [if_neg large]
      by_cases small : e < -(2 ^ 11 + m.log2)
      · rw [if_pos small]
        trivial
      · rw [if_neg small]
        by_cases product : 0 ≤ e
        · rw [if_pos product]
          exact isPlain_roundWithAccuracy _ _ _
        · rw [if_neg product]
          exact isPlain_roundWithAccuracy _ _ _

/-- A natural number is a length, exactly or rounded. -/
theorem isLength_ofNat (n : Nat) : IsLength (Float.ofNat n) := by
  change IsLength (Float.ofScientific n false 0)
  unfold Float.ofScientific
  split
  · have small : IsLength n.toUInt64.toFloat := isLength_pack (isPlain_ofNat _)
    have one : (Float.ofBits 0x3FF0000000000000).toBits.toNat = 0x3FF0000000000000 := rfl
    exact (small.mul_div_of_toBits one (by decide) (by decide)).1
  · exact isLength_pack (isPlain_ofScientific _ _)

/-- The number of nanoseconds in a second is a double. -/
theorem toBits_billion : (1000000000.0 : Float).toBits.toNat = 0x41CDCD6500000000 := rfl

/-! ## The greatest of some lengths -/

/-- The greatest of some lengths, at least 0. -/
def greatest (xs : List Float) : Float := xs.foldl longer 0.0

theorem greatest_append_singleton (xs : List Float) (x : Float) :
    greatest (xs ++ [x]) = longer (greatest xs) x := by
  simp [greatest, List.foldl_append]

/-- The greatest of some lengths is a length without a sign, and no more than any bound on them. -/
theorem greatest_spec {xs : List Float} (h : ∀ x ∈ xs, IsLength x) :
    IsLength (greatest xs) ∧ (greatest xs).toBits.toNat / 2 ^ 63 = 0 ∧
      ∀ n, magnitude (greatest xs) ≤ n ↔ ∀ x ∈ xs, magnitude x ≤ n := by
  induction xs using List.reverseRecOn with
  | nil => exact ⟨isLength_zero, rfl, fun n => by simp [greatest, magnitude_zero]⟩
  | append_singleton xs x ih =>
      obtain ⟨length, unsigned, bound⟩ := ih fun y hy => h y (by simp [hy])
      have hx : IsLength x := h x (by simp)
      have both := isLength_longer length hx
      rw [greatest_append_singleton]
      refine ⟨both.1, unsigned_longer length hx unsigned, fun n => ?_⟩
      rw [both.2, max_le_iff, bound]
      simp [or_imp, forall_and]

/-- The greatest of some lengths is one of them, if there are any. -/
theorem exists_greatest {xs : List Float} (h : ∀ x ∈ xs, IsLength x) (hne : xs ≠ []) :
    ∃ x ∈ xs, magnitude (greatest xs) = magnitude x := by
  obtain ⟨-, -, bound⟩ := greatest_spec h
  by_contra none_left
  push Not at none_left
  have less : ∀ x ∈ xs, magnitude x < magnitude (greatest xs) := fun x hx =>
    lt_of_le_of_ne ((bound _).1 le_rfl x hx) (none_left x hx).symm
  obtain ⟨x, hx⟩ := List.exists_mem_of_ne_nil xs hne
  have smaller := (bound (magnitude (greatest xs) - 1)).2 fun y hy => Nat.le_sub_one_of_lt (less y hy)
  have pos := less x hx
  omega

/-- A sum with the greatest of some lengths is bounded by what bounds the sums with each of them. -/
theorem IsLength.add_greatest_le_iff {x : Float} {ys : List Float} (hx : IsLength x)
    (h : ∀ y ∈ ys, IsLength y) (hne : ys ≠ []) (n : Nat) :
    magnitude (x + greatest ys) ≤ n ↔ ∀ y ∈ ys, magnitude (x + y) ≤ n := by
  obtain ⟨length, -, bound⟩ := greatest_spec h
  refine ⟨fun le y hy => ?_, fun le => ?_⟩
  · exact (hx.add_le_add (h y hy) length ((bound _).1 le_rfl y hy)).trans le
  · obtain ⟨y, hy, same⟩ := exists_greatest h hne
    exact (hx.add_le_add length (h y hy) same.le).trans (le y hy)

end Number

theorem Duration.isLength_secondsOfMillis (ms : Nat) : Number.IsLength (secondsOfMillis ms) := by
  have fraction := (Number.isLength_ofNat (ms % 1000 * nanosPerMilli)).mul_div_of_toBits
    Number.toBits_billion (by decide) (by decide)
  exact ((Number.isLength_ofNat _).add fraction.2).1

end Combo
