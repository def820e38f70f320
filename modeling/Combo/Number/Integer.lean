-- SUMMARY: Whole numbers as text: decimal digits, and reading a signed or unsigned numeral with bounds.

/-!
# Whole numbers as text

A numeral is a non-empty row of ASCII digits after an optional sign; blanks,
underscores and other digits are refused. An unsigned numeral may carry `+`
only. A numeral outside the bounds of its type is refused, never clamped.
-/

namespace Combo.Number

/-- The value of an ASCII digit. -/
def digit? (c : Char) : Option Nat :=
  if '0' ≤ c ∧ c ≤ '9' then some (c.toNat - '0'.toNat) else none

/-- The value of a row of digits, read after `acc`. -/
def digitsFrom? (acc : Nat) : List Char → Option Nat
  | [] => some acc
  | c :: r => (digit? c).bind fun d => digitsFrom? (10 * acc + d) r

/-- The value of a non-empty row of digits. -/
def digits? : List Char → Option Nat
  | [] => none
  | c :: r => digitsFrom? 0 (c :: r)

/-- The value of a digit of a radix up to sixteen. -/
def digitIn? (radix : Nat) (c : Char) : Option Nat :=
  let value :=
    if '0' ≤ c ∧ c ≤ '9' then some (c.toNat - '0'.toNat)
    else if 'a' ≤ c ∧ c ≤ 'f' then some (c.toNat - 'a'.toNat + 10)
    else if 'A' ≤ c ∧ c ≤ 'F' then some (c.toNat - 'A'.toNat + 10)
    else none
  value.filter (· < radix)

/-- The value of a row of digits of a radix, read after `acc`. -/
def radixFrom? (radix acc : Nat) : List Char → Option Nat
  | [] => some acc
  | c :: r => (digitIn? radix c).bind fun d => radixFrom? radix (radix * acc + d) r

/-- An unsigned numeral not above `max`. -/
def unsigned? (max : Nat) (s : List Char) : Option Nat :=
  let body := match s with
    | '+' :: r => r
    | _ => s
  (digits? body).filter (· ≤ max)

/-- A signed numeral that fits in `bits` bits of two's complement. -/
def signed? (bits : Nat) (s : List Char) : Option Int :=
  let value := match s with
    | '-' :: r => (digits? r).map fun n => -(n : Int)
    | '+' :: r => (digits? r).map Int.ofNat
    | _ => (digits? s).map Int.ofNat
  value.filter fun n => -(Nat.pow 2 (bits - 1) : Int) ≤ n ∧ n < Nat.pow 2 (bits - 1)

/-- The largest value of an unsigned word of `bits` bits. -/
def wordMax (bits : Nat) : Nat := Nat.pow 2 bits - 1

/-- The decimal digits of a natural number, most significant first. -/
def decimal (n : Nat) : List Char :=
  if n < 10 then [Char.ofNat (n + 48)]
  else decimal (n / 10) ++ [Char.ofNat (n % 10 + 48)]
termination_by n
decreasing_by omega

/-- The decimal text of a natural number. -/
def natText (n : Nat) : String := String.ofList (decimal n)

/-- The sixteen hexadecimal digits in either letter case. -/
def hexDigits (upper : Bool) : List Char :=
  (if upper then "0123456789ABCDEF" else "0123456789abcdef").toList

/-- The lowest `places` hexadecimal digits of a number. -/
def hexText (upper : Bool) : Nat → Nat → List Char
  | 0, _ => []
  | places + 1, n => hexText upper places (n / 16) ++ [((hexDigits upper)[n % 16]?).getD '0']

/-- The decimal text of an integer. -/
def intText : Int → String
  | .ofNat n => natText n
  | .negSucc n => "-" ++ natText (n + 1)

end Combo.Number
