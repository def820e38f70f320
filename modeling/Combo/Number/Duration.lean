-- SUMMARY: Durations: seconds as a double, whole nanoseconds, and whole milliseconds of the clock.
import Combo.Number.Double

/-!
# Durations

A duration in seconds becomes whole nanoseconds, to nearest with ties to even.
The clock counts whole milliseconds; a pause ends at the first whole
millisecond that is not before its end.
-/

namespace Combo.Duration

/-- Nanoseconds in a second. -/
def nanosPerSecond : Nat := 1000000000

/-- Nanoseconds in a millisecond. -/
def nanosPerMilli : Nat := 1000000

/-- Durations lie below `2 ^ 64` seconds. -/
def limitNanos : Nat := Nat.pow 2 64 * nanosPerSecond

/-- The whole nanoseconds nearest to `x` seconds; nothing for NaN, negative or too long durations. -/
def nanos? (x : Float) : Option Nat :=
  match Number.Parts.ofDouble x with
  | .finite negative m e =>
    if negative && m != 0 then none
    else
      let n := Number.roundScaled .toEven m e nanosPerSecond
      if n < limitNanos then some n else none
  | .infinite _ => none
  | .notANumber => none

/-- The nanoseconds an input is held or a pause lasts: `x` seconds, or 0 where that is no duration. -/
def nanosOrZero (x : Float) : Nat := (nanos? x).getD 0

/-- Whole milliseconds that are not shorter than `n` nanoseconds. -/
def millisUp (n : Nat) : Nat := (n + (nanosPerMilli - 1)) / nanosPerMilli

/-- A whole number of milliseconds in seconds: the seconds plus the fraction left. -/
def secondsOfMillis (ms : Nat) : Float :=
  Float.ofNat (ms / 1000) + Float.ofNat (ms % 1000 * nanosPerMilli) / 1000000000.0

/-- A total of seconds as whole milliseconds, kept within 64 bits. -/
def millisOfSeconds (x : Float) : Nat := Number.roundToNat (Nat.pow 2 64 - 1) (x * 1000.0)

end Combo.Duration
