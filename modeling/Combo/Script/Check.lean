-- SUMMARY: Checking a whole script: unknown names, parameters and lengths; any fault refuses the script.
import Combo.Script.Reading

/-!
# Checking scripts

A script is accepted as a whole or refused with its first fault. Unknown names
come first, then a script without actions, then the actions in script order:
of each the parameter and then its length.
-/

namespace Combo.Script

/-- Why a script is refused. -/
inductive Fault where
  | emptyScript
  | reservedCommand (name : String)
  | unsupportedType (name : String)
  | negativeDuration (action : String) (seconds : Float)
  | durationExceeded (action : String) (seconds max : Float)
  | invalidParameter (action reason : String)
  deriving DecidableEq

/-- The wording of a fault. -/
def Fault.message : Fault → String
  | .emptyScript => "Script contains no executable actions"
  | .reservedCommand name => "Control command not allowed in scripts: " ++ name
  | .unsupportedType name => "Unsupported action type: " ++ name
  | .negativeDuration action seconds =>
    "Negative duration " ++ Number.doubleText seconds ++ "s for " ++ action
  | .durationExceeded action seconds max =>
    "Duration " ++ Number.doubleText seconds ++ "s for " ++ action ++ " exceeds the "
      ++ Number.doubleText max ++ "s limit"
  | .invalidParameter action reason => "Invalid parameter for " ++ action ++ ": " ++ reason

/-- Commands of whoever schedules scripts; they never stand in one. -/
def reservedCommands : List String :=
  ["exit", "stop", "pause", "resume", "restart", "quit", "end"]

/-- The fault of an unknown name. -/
def Fault.ofUnknown (name : String) : Fault :=
  if reservedCommands.contains name then .reservedCommand name else .unsupportedType name

/-! ## One action -/

/-- What is wrong with the parameter of an action, if anything. -/
def parameterReason? (a : Action) : Option String :=
  let readable := a.parameter.isNone || a.isHold
  match a.kind with
  | .switch =>
    if a.switchSlot?.isSome then none else some "expected a character index from 1 to 4"
  | .moveBy =>
    if a.mouseDelta?.isSome then none else some "expected integer offsets 'dx,dy'"
  | .attack =>
    if readable || a.attackMode?.isSome then none
    else some "expected a press count or a duration"
  | .moveForward | .moveLeft | .moveBack | .moveRight | .charge | .wait | .skill | .dash =>
    if readable || a.numeric?.isSome then none
    else some "expected a duration in seconds or 'hold'"
  | .burst | .jump | .interact | .altInteract =>
    if a.parameter.isNone then none else some "takes no parameter"

/-- The fault in the length of an action, if any. -/
def lengthFault? (max : Float) (a : Action) : Option Fault :=
  if !a.seconds.isFinite then
    some (.invalidParameter a.text "duration is not a finite number")
  else if a.seconds < 0.0 then some (.negativeDuration a.text a.seconds)
  else if max < a.seconds then some (.durationExceeded a.text a.seconds max)
  else none

/-- The first fault of an action, if any. -/
def actionFault? (max : Float) (a : Action) : Option Fault :=
  match parameterReason? a with
  | some reason => some (.invalidParameter a.text reason)
  | none => lengthFault? max a

/-! ## Whole scripts -/

/-- The actions of a reading, in script order. -/
def Reading.actions (r : Reading) : List Action := r.groups.flatMap (·.actions)

/-- The first fault of a reading, if any. -/
def Reading.fault? (max : Float) (r : Reading) : Option Fault :=
  match r.unknown with
  | name :: _ => some (Fault.ofUnknown name)
  | [] =>
    match r.groups with
    | [] => some .emptyScript
    | _ :: _ => r.actions.findSome? (actionFault? max)

/-- The groups of a script, or its first fault. -/
def check (max : Float) (script : String) : Except Fault (List Group) :=
  let r := read script
  match r.fault? max with
  | some fault => .error fault
  | none => .ok r.groups

end Combo.Script
