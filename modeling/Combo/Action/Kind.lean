-- SUMMARY: The fifteen kinds of action: script tokens, record names, the inputs they drive, and which of them conflict.
import Combo.Input.Basic

/-!
# Kinds of action

Each kind has a token, which scripts use, and a name, which records use. Some
kinds drive one fixed input; `switch` takes it from its parameter, and `wait`
and `moveBy` press nothing.

Two kinds conflict when they cannot run at the same time. A running action is
interrupted by incoming ones when it conflicts with one of them, or when both
are attacks: then the newer attack takes over.
-/

namespace Combo

/-- Every action a script may name. -/
inductive Kind where
  | moveForward | moveLeft | moveBack | moveRight
  | skill | burst | attack | charge | switch | dash | jump
  | interact | altInteract | wait | moveBy
  deriving DecidableEq, Repr, Inhabited

namespace Kind

/-- All kinds, in the order of their declaration. -/
def all : List Kind :=
  [.moveForward, .moveLeft, .moveBack, .moveRight, .skill, .burst, .attack, .charge,
   .switch, .dash, .jump, .interact, .altInteract, .wait, .moveBy]

/-- The token a script uses for the kind. -/
def token : Kind → String
  | .moveForward => "w"
  | .moveLeft => "a"
  | .moveBack => "s"
  | .moveRight => "d"
  | .skill => "e"
  | .burst => "q"
  | .attack => "attack"
  | .charge => "charge"
  | .switch => "sw"
  | .dash => "dash"
  | .jump => "jump"
  | .interact => "f"
  | .altInteract => "t"
  | .wait => "wait"
  | .moveBy => "moveby"

/-- The name a record uses for the kind. -/
def name : Kind → String
  | .moveForward => "move_forward"
  | .moveLeft => "move_left"
  | .moveBack => "move_back"
  | .moveRight => "move_right"
  | .skill => "skill"
  | .burst => "burst"
  | .attack => "attack"
  | .charge => "charge"
  | .switch => "switch"
  | .dash => "dash"
  | .jump => "jump"
  | .interact => "interact"
  | .altInteract => "alt_interact"
  | .wait => "wait"
  | .moveBy => "move_by"

/-- The kind with this token. -/
def ofToken? (token : String) : Option Kind :=
  all.find? fun kind => kind.token == token

/-- The kind with this name. -/
def ofName? (name : String) : Option Kind :=
  all.find? fun kind => kind.name == name

/-- The message about a token that names no kind. -/
def unknownMessage (token : String) : String := "Unknown action type: " ++ token

/-- The one input the kind drives, if it is fixed. -/
def input? : Kind → Option Input
  | .moveForward => some .forward
  | .moveLeft => some .left
  | .moveBack => some .back
  | .moveRight => some .right
  | .skill => some .skill
  | .burst => some .burst
  | .attack | .charge => some .attack
  | .dash => some .sprint
  | .jump => some .jump
  | .interact => some .interact
  | .altInteract => some .altInteract
  | .switch | .wait | .moveBy => none

/-- Whether actions of the kind send anything to the game window. -/
def needsFocus (kind : Kind) : Bool := kind != .wait

/-! ## Conflicts -/

/-- The pairs of kinds that cannot run at the same time. -/
def conflictPairs : List (Kind × Kind) :=
  [(.moveForward, .moveBack), (.moveLeft, .moveRight), (.attack, .charge)]

/-- Whether two kinds cannot run at the same time. -/
def conflictsWith (a b : Kind) : Bool :=
  conflictPairs.contains (a, b) || conflictPairs.contains (b, a)

/-- Whether a kind conflicts with one of the others. -/
def conflicts (a : Kind) (others : List Kind) : Bool :=
  others.any (a.conflictsWith ·)

/-- Whether an incoming kind displaces a running one. -/
def displacedBy (running incoming : Kind) : Bool :=
  running.conflictsWith incoming || (running == .attack && incoming == .attack)

/-- Whether a running action must be cancelled when the incoming kinds are layered on top of it. -/
def interrupted (running : Kind) (incoming : List Kind) : Bool :=
  incoming.any (running.displacedBy ·)

/-! ## Small laws -/

theorem conflictsWith_comm (a b : Kind) : a.conflictsWith b = b.conflictsWith a := by
  simp only [conflictsWith, Bool.or_comm]

theorem displacedBy_comm (a b : Kind) : a.displacedBy b = b.displacedBy a := by
  simp only [displacedBy, conflictsWith_comm a b, Bool.and_comm]

end Kind

end Combo
