-- SUMMARY: The seconds an action takes, inferred from its kind and parameter.
import Combo.Action.Basic

/-!
# The length of an action

The length of an action follows from its kind and parameter. A parameter that
should be a number and is none gives 0 and is left for the script check to
refuse.
-/

namespace Combo.Action

/-- The seconds of an action with the parameter `hold`. -/
def holdSeconds : Float := 0.5

/-- The seconds counted for each press of an attack with a press count. -/
def pressSeconds : Float := 0.2

/-- The most presses counted for an attack with a press count. -/
def maxCountedPresses : Nat := 10

/-- The seconds of movement, charge and wait without a parameter. -/
def defaultSeconds : Float := 1.0

/-- A press count as the estimate counts it: at least 1 and at most `maxCountedPresses`. -/
def countedPresses (n : Int) : Nat := min maxCountedPresses (max 1 n.toNat)

/-- The number a parameter states, or 0. -/
def statedSeconds : Option String → Float
  | some p => (Number.double? p.toList).getD 0.0
  | none => 0.0

/-- The seconds of an attack. -/
def attackSeconds : Option String → Float
  | none => 0.0
  | some p =>
    if p.toList.contains '.' then statedSeconds (some p)
    else match Number.signed? 64 p.toList with
      | some n => Float.ofNat (countedPresses n) * pressSeconds
      | none => 0.0

/-- The seconds implied by a kind and its parameter. -/
def inferSeconds (kind : Kind) (parameter : Option String) : Float :=
  if parameter = some "hold" then holdSeconds
  else match kind with
    | .attack => attackSeconds parameter
    | .moveForward | .moveLeft | .moveBack | .moveRight | .charge | .wait =>
      if parameter = none then defaultSeconds else statedSeconds parameter
    | .skill | .dash => statedSeconds parameter
    | .burst | .switch | .jump | .interact | .altInteract | .moveBy => 0.0

/-- The action of a kind and parameter, with the length they imply. -/
def make (kind : Kind) (parameter : Option String) : Action :=
  ⟨kind, parameter, inferSeconds kind parameter⟩

end Combo.Action
