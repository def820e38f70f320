-- SUMMARY: Doubles as decimal text: reading a decimal numeral, and the shortest positional numeral that reads back.
import Combo.Number.Integer
import Combo.Number.Double

/-!
# Doubles as decimal text

Reading takes an optional sign and then `inf`, `infinity`, `nan` in any letter
case, or digits with an optional point and an optional exponent; at least one
digit stands before the exponent. The result is the nearest double.

Writing gives the fewest significant digits that read back as the same double,
of those the nearest, and never an exponent.
-/

namespace Combo.Number

/-! ## Reading -/

/--
The double nearest to `m * 10 ^ e`, where `m` has `digits` digits. Numbers far
outside the range of doubles are settled without computing the power.
-/
def ofDecimal (m digits : Nat) (e : Int) : Float :=
  if m = 0 then 0.0
  else if 310 < digits + e then 1.0 / 0.0
  else if digits + e < -330 then 0.0
  else match e with
    | .ofNat k => Float.ofScientific m false k
    | .negSucc k => Float.ofScientific m true (k + 1)

/-- The leading digits of a text and the rest after them. -/
def takeDigits (s : List Char) : List Char × List Char :=
  s.span fun c => '0' ≤ c && c ≤ '9'

/-- The exponent part of a numeral: nothing, or `e`, an optional sign and digits. -/
def exponent? : List Char → Option Int
  | [] => some 0
  | c :: r =>
    if c = 'e' ∨ c = 'E' then
      match r with
      | '-' :: d => (digits? d).map fun n => -(n : Int)
      | '+' :: d => (digits? d).map Int.ofNat
      | d => (digits? d).map Int.ofNat
    else none

/-- A numeral without a sign. -/
def magnitude? (s : List Char) : Option Float :=
  let word := s.map Char.toLower
  if word = "inf".toList ∨ word = "infinity".toList then some (1.0 / 0.0)
  else if word = "nan".toList then some (0.0 / 0.0)
  else
    let (whole, rest) := takeDigits s
    let (fraction, rest) := match rest with
      | '.' :: r => takeDigits r
      | r => ([], r)
    if whole.isEmpty && fraction.isEmpty then none
    else do
      let e ← exponent? rest
      let significant := (whole ++ fraction).dropWhile (· == '0')
      let m ← digitsFrom? 0 significant
      return ofDecimal m significant.length (e - fraction.length)

/-- A decimal numeral, read to the nearest double. -/
def double? : List Char → Option Float
  | '-' :: r => (magnitude? r).map (-·)
  | '+' :: r => magnitude? r
  | s => magnitude? s

/-! ## Shortest digits -/

/-- The reals that read as one positive double: `low`, `value` and `high` over one denominator. -/
structure Interval where
  low : Nat
  value : Nat
  high : Nat
  denominator : Nat
  /-- Whether the two ends themselves read as the double. -/
  closed : Bool
  deriving Repr

/-- The interval of `m * 2 ^ e`: halfway to its neighbours, ends included when `m` is even. -/
def Interval.around (m : Nat) (e : Int) : Interval :=
  let below := if m = Nat.pow 2 52 ∧ e ≠ -1074 then 4 * m - 1 else 4 * m - 2
  let scale : Nat := Nat.pow 2 (e - 2).toNat
  { low := below * scale
    value := 4 * m * scale
    high := (4 * m + 2) * scale
    denominator := Nat.pow 2 (2 - e).toNat
    closed := m % 2 == 0 }

/-- Whether `n / d` lies in the interval. -/
def Interval.contains (i : Interval) (n d : Nat) : Bool :=
  let n' := n * i.denominator
  if i.closed then i.low * d ≤ n' && n' ≤ i.high * d
  else i.low * d < n' && n' < i.high * d

/-- A decimal numeral `digits * 10 ^ power`. -/
structure Numeral where
  digits : Nat
  power : Int
  deriving DecidableEq, Repr

/-- Numerator and denominator of `10 ^ power`. -/
def powerOfTen (power : Int) : Nat × Nat :=
  (Nat.pow 10 power.toNat, Nat.pow 10 (-power).toNat)

/-- The multiple of `10 ^ power` in the interval that is nearest to its value, if there is one. -/
def Interval.onGrid? (i : Interval) (power : Int) : Option Numeral :=
  let (num, den) := powerOfTen power
  let lower := i.value * den / (i.denominator * num)
  let upper := lower + 1
  let inLower := 0 < lower && i.contains (lower * num) den
  let inUpper := i.contains (upper * num) den
  if inLower && inUpper then
    let toLower := i.value * den - lower * num * i.denominator
    let toUpper := upper * num * i.denominator - i.value * den
    some ⟨if toUpper < toLower then upper else lower, power⟩
  else if inLower then some ⟨lower, power⟩
  else if inUpper then some ⟨upper, power⟩
  else none

/-- The power of ten of the leading digit of `n / d`, at most one too large. -/
def leadingPower (n d : Nat) : Int :=
  ((decimal n).length : Int) - ((decimal d).length : Int)

/-- The first grid, from `power` downwards, with a numeral in the interval. -/
def Interval.firstOnGrid (i : Interval) (power : Int) : Nat → Numeral
  | 0 => ⟨0, 0⟩
  | fuel + 1 =>
    match i.onGrid? power with
    | some numeral => numeral
    | none => i.firstOnGrid (power - 1) fuel

/--
The shortest numeral that reads back as `m * 2 ^ e`. Grids are tried from the
leading digit downwards; seventeen digits always suffice, and two more grids
cover the slack of `leadingPower`.
-/
def shortest (m : Nat) (e : Int) : Numeral :=
  let i := Interval.around m e
  i.firstOnGrid (leadingPower i.value i.denominator) 20

/-! ## Positional text -/

/-- The digits of a numeral written out with a point where one is needed. -/
def Numeral.positional (x : Numeral) : List Char :=
  let ds := decimal x.digits
  match x.power with
  | .ofNat k => ds ++ List.replicate k '0'
  | .negSucc k =>
    let places := k + 1
    if places < ds.length then
      ds.take (ds.length - places) ++ '.' :: ds.drop (ds.length - places)
    else
      '0' :: '.' :: (List.replicate (places - ds.length) '0' ++ ds)

/-- A double as the shortest decimal text that reads back, never with an exponent. -/
def doubleText (x : Float) : String :=
  match Parts.ofDouble x with
  | .notANumber => "NaN"
  | .infinite negative => if negative then "-inf" else "inf"
  | .finite negative m e =>
    let body := if m = 0 then ['0'] else (shortest m e).positional
    String.ofList (if negative then '-' :: body else body)

end Combo.Number
