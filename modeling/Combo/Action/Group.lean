-- SUMMARY: Groups of actions that run at the same time: estimate, text, kinds.
import Combo.Action.Basic

/-!
# Groups

The actions of a group are meant to run at the same time. Its estimate is the
longest length of its actions and serves reports of the remaining time only.
-/

namespace Combo

/-- Actions meant to run at the same time. -/
structure Group where
  actions : List Action
  /-- The longest length of the actions, in seconds. -/
  estimate : Float
  deriving DecidableEq

/-- The larger of two doubles; a NaN on the right is passed over. -/
def longer (x y : Float) : Float := if x < y then y else x

/-- The longest length of some actions, at least 0. -/
def longest (actions : List Action) : Float :=
  actions.foldl (fun m a => longer m a.seconds) 0.0

namespace Group

/-- The group of some actions. -/
def of (actions : List Action) : Group := ⟨actions, longest actions⟩

instance : Inhabited Group := ⟨of []⟩

/-- The group as a script writes it. -/
def text (g : Group) : String := "&".intercalate (g.actions.map Action.text)

/-- The kinds of the actions. -/
def kinds (g : Group) : List Kind := g.actions.map (·.kind)

/-- Whether an action of the group has this kind. -/
def contains (g : Group) (kind : Kind) : Bool := g.kinds.contains kind

end Group

/-- The sum of the estimates of some groups, in seconds. -/
def totalEstimate (groups : List Group) : Float :=
  groups.foldl (fun s g => s + g.estimate) 0.0

end Combo
