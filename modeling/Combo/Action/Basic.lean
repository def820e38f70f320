-- SUMMARY: One action of a script: its key, its text, and the readings of its parameter.
import Combo.Action.Kind
import Combo.Number.Decimal
import Combo.Text.Blank

/-!
# Actions

An action is a kind, an optional parameter and the seconds it is held or
repeated. The parameter is text; each kind reads it in its own way.
-/

namespace Combo

/-- One symbolic command of a script. -/
structure Action where
  kind : Kind
  parameter : Option String
  /-- How long the input stays held, or how long a timed loop repeats. -/
  seconds : Float
  deriving DecidableEq

instance : Inhabited Action := ⟨⟨.wait, none, 0.0⟩⟩

/-- How an attack repeats. -/
inductive AttackMode where
  /-- No parameter: one press. -/
  | single
  /-- A whole number: that many presses. -/
  | count (presses : Nat)
  /-- A number with a point: presses spread over that many seconds. -/
  | timed (seconds : Float)
  deriving DecidableEq

namespace Action

/-- The key under which the action is listed while it runs. -/
def key (a : Action) : String := a.kind.token ++ "_" ++ a.parameter.getD ""

/-- The action as a script writes it. -/
def text (a : Action) : String :=
  match a.parameter with
  | some p => a.kind.token ++ "(" ++ p ++ ")"
  | none => a.kind.token

/-- Whether the parameter is the word `hold`. -/
def isHold (a : Action) : Bool := a.parameter == some "hold"

/-- The parameter as a number. -/
def numeric? (a : Action) : Option Float :=
  a.parameter.bind fun p => Number.double? p.toList

/-- The party slot of a switch: a whole number from 1 to 4. -/
def switchSlot? (a : Action) : Option Nat :=
  (a.parameter.bind fun p => Number.unsigned? (Number.wordMax 8) p.toList).filter
    fun n => 1 ≤ n ∧ n ≤ 4

/-- The two sides of the first comma. -/
def splitAtComma? (s : List Char) : Option (List Char × List Char) :=
  match s.span (· != ',') with
  | (_, []) => none
  | (x, _ :: y) => some (x, y)

/-- The offsets of a mouse move: two whole numbers around a comma. -/
def mouseDelta? (a : Action) : Option (Int × Int) := do
  let p ← a.parameter
  let (x, y) ← splitAtComma? p.toList
  let dx ← Number.signed? 32 (Text.trim x)
  let dy ← Number.signed? 32 (Text.trim y)
  return (dx, dy)

/-- How an attack repeats; nothing for other kinds and for a parameter that says neither. -/
def attackMode? (a : Action) : Option AttackMode :=
  if a.kind = .attack then
    match a.parameter with
    | none => some .single
    | some p =>
      if p.toList.contains '.' then (Number.double? p.toList).map .timed
      else (Number.unsigned? (Number.wordMax 32) p.toList).map fun n => .count (max n 1)
  else none

end Action

end Combo
