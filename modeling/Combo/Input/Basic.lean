-- SUMMARY: The symbolic inputs of a game and their names.
import Combo.Number.Integer

/-!
# Game inputs

An input says what is to be done (`skill`), not which key does it. The members
of a party are numbered inputs.
-/

namespace Combo

/-- A symbolic input understood by the game. -/
inductive Input where
  | forward | left | back | right
  | skill | burst | attack | sprint | jump
  | interact | altInteract
  | member (slot : Nat)
  deriving DecidableEq, Repr, Inhabited

/-- The inputs that are not party members, with their names. -/
def Input.named : List (Input × String) :=
  [(.forward, "forward"), (.left, "left"), (.back, "back"), (.right, "right"),
   (.skill, "skill"), (.burst, "burst"), (.attack, "attack"), (.sprint, "sprint"),
   (.jump, "jump"), (.interact, "interact"), (.altInteract, "alt_interact")]

/-- The name of an input as it is shown. -/
def Input.name : Input → String
  | .forward => "forward"
  | .left => "left"
  | .back => "back"
  | .right => "right"
  | .skill => "skill"
  | .burst => "burst"
  | .attack => "attack"
  | .sprint => "sprint"
  | .jump => "jump"
  | .interact => "interact"
  | .altInteract => "alt_interact"
  | .member slot => "member_" ++ Number.natText slot

/-- The input, other than a party member, with this name. -/
def Input.ofName? (name : String) : Option Input :=
  (named.find? fun entry => entry.2 == name).map (·.1)

end Combo
