-- SUMMARY: Binary64 numbers taken apart into sign, significand and exponent, and exact rounding of them to whole numbers.

/-!
# Binary64 numbers, taken apart

A finite double is `m * 2 ^ e` for a natural significand `m` and an integer
exponent `e`. Rounding to whole numbers is done on these parts in exact
arithmetic.
-/

namespace Combo.Number

/-- What a double stands for. -/
inductive Parts where
  | finite (negative : Bool) (significand : Nat) (exponent : Int)
  | infinite (negative : Bool)
  | notANumber
  deriving DecidableEq, Repr

/-- The parts of a double, read off its bits. -/
def Parts.ofDouble (x : Float) : Parts :=
  let bits : Nat := x.toBits.toNat
  let negative := bits / Nat.pow 2 63 == 1
  let biased : Nat := bits / Nat.pow 2 52 % Nat.pow 2 11
  let fraction : Nat := bits % Nat.pow 2 52
  if biased = 2047 then
    if fraction = 0 then .infinite negative else .notANumber
  else if biased = 0 then .finite negative fraction (-1074)
  else .finite negative (Nat.pow 2 52 + fraction) ((biased : Int) - 1075)

/-- How a quotient that lies halfway between two whole numbers is rounded. -/
inductive Tie where
  | toEven
  | away
  deriving DecidableEq, Repr

/-- The whole number nearest to `n / d`. -/
def roundDiv (tie : Tie) (n d : Nat) : Nat :=
  let q := n / d
  let r := n % d
  if 2 * r < d then q
  else if d < 2 * r then q + 1
  else match tie with
    | .toEven => if q % 2 = 0 then q else q + 1
    | .away => q + 1

/-- The whole number nearest to `m * 2 ^ e * scale`. -/
def roundScaled (tie : Tie) (m : Nat) (e : Int) (scale : Nat) : Nat :=
  match e with
  | .ofNat k => m * Nat.pow 2 k * scale
  | .negSucc k => roundDiv tie (m * scale) (Nat.pow 2 (k + 1))

/--
A double rounded to a natural number: halves go away from zero, values above
`max` become `max`, and negative numbers and NaN become 0.
-/
def roundToNat (max : Nat) (x : Float) : Nat :=
  match Parts.ofDouble x with
  | .finite false m e => min max (roundScaled .away m e 1)
  | .finite true _ _ => 0
  | .infinite negative => if negative then 0 else max
  | .notANumber => 0

end Combo.Number
