-- SUMMARY: What an action does on its own: its plan, and one poll of it at an instant.
import Combo.Action.Basic
import Combo.Executor.Outcome
import Combo.Input.Device
import Combo.Number.Duration

/-!
# The run of one action

An action has a plan: to hold an input for some time, to press one, to press
the attack again and again, to pause, or to move the mouse. It is carried out in
polls. A poll happens when the action is started, when the time it waits for has
come, or when it has been cancelled; it sends at most one command. Cancellation
is seen before the time: an action that is both due and cancelled is cancelled.
-/

namespace Combo

/-- What an action is going to do. Times are in milliseconds. -/
inductive Plan where
  | hold (input : Input) (ms : Nat)
  | press (input : Input)
  /-- Press the attack this often, with a pause after each press. -/
  | repeatPress (presses : Nat)
  | pause (ms : Nat)
  | move (dx dy : Int)
  /-- The parameter does not say what to do. -/
  | invalid
  deriving DecidableEq, Repr

/-- The milliseconds a plan takes when nothing disturbs it, with `attackMs` after each press. -/
def Plan.millis (attackMs : Nat) : Plan → Nat
  | .hold _ ms => ms
  | .repeatPress n => n * attackMs
  | .pause ms => ms
  | .press _ | .move _ _ | .invalid => 0

/-- A dash longer than this many seconds is held instead of pressed. -/
def dashHoldSeconds : Float := 0.1

namespace Action

/-- The milliseconds an action holds or pauses. -/
def millis (a : Action) : Nat :=
  Duration.millisUp (Duration.nanosOrZero (longer 0.0 a.seconds))

/-- The presses of an attack that lasts some seconds: at least one. -/
def timedPresses (attackMs : Nat) (seconds : Float) : Nat :=
  max 1 (Number.roundToNat (Number.wordMax 32) (seconds / Duration.secondsOfMillis attackMs))

/-- The plan of an attack that is not held. -/
def attackPlan (attackMs : Nat) (a : Action) : Plan :=
  match a.attackMode? with
  | some .single => .repeatPress 1
  | some (.count n) => .repeatPress n
  | some (.timed seconds) => .repeatPress (timedPresses attackMs seconds)
  | none => .invalid

/-- The plan of an action, with `attackMs` between the presses of an attack. -/
def plan (attackMs : Nat) (a : Action) : Plan :=
  match a.kind with
  | .moveForward => .hold .forward a.millis
  | .moveLeft => .hold .left a.millis
  | .moveBack => .hold .back a.millis
  | .moveRight => .hold .right a.millis
  | .charge => .hold .attack a.millis
  | .skill => if a.isHold || 0.0 < a.seconds then .hold .skill a.millis else .press .skill
  | .dash => if dashHoldSeconds < a.seconds then .hold .sprint a.millis else .press .sprint
  | .burst => .press .burst
  | .jump => .press .jump
  | .interact => .press .interact
  | .altInteract => .press .altInteract
  | .switch =>
    match a.switchSlot? with
    | some slot => .press (.member slot)
    | none => .invalid
  | .attack => if a.isHold then .hold .attack a.millis else a.attackPlan attackMs
  | .wait => .pause a.millis
  | .moveBy =>
    match a.mouseDelta? with
    | some (dx, dy) => .move dx dy
    | none => .invalid

end Action

/-- How far an action has come. -/
inductive Progress where
  /-- Accepted, not started. -/
  | queued
  /-- Started, not polled yet. -/
  | ready
  | holding (input : Input) (due : Nat)
  /-- Pausing after a press, with `left` presses to come. -/
  | pressing (left : Nat) (due : Nat)
  | pausing (due : Nat)
  | ended (ending : Ending)
  deriving DecidableEq, Repr, Inhabited

namespace Progress

/-- Whether the action has ended. -/
def isEnded : Progress → Bool
  | .ended _ => true
  | _ => false

/-- Whether the action waits to be started. -/
def isQueued : Progress → Bool
  | .queued => true
  | _ => false

/-- The instant the action waits for. -/
def due? : Progress → Option Nat
  | .holding _ due => some due
  | .pressing _ due => some due
  | .pausing due => some due
  | .queued | .ready | .ended _ => none

/-- Whether a poll would get on with the action. -/
def runnable (now : Nat) (cancelled : Bool) : Progress → Bool
  | .ready => true
  | .holding _ due => cancelled || due ≤ now
  | .pressing _ due => cancelled || due ≤ now
  | .pausing due => cancelled || due ≤ now
  | .queued | .ended _ => false

end Progress

/-- A command and its answer. -/
abbrev Exchange := Command × Response

/-- Sends a command: on success the action goes on to `next`, else it ends as failed. -/
def Device.ask (device : Device) (command : Command) (next : Progress) : Progress × Option Exchange :=
  let response := device.respond command
  let progress := match response with
    | .done => next
    | .refused e => .ended (.failed (ExecutionError.input e).message)
    | .crashed => .ended (.failed ExecutionError.crash.message)
  (progress, some (command, response))

/-- The next press of an attack, with `left` presses to come after it. -/
def Device.askPress (device : Device) (attackMs now left : Nat) : Progress × Option Exchange :=
  device.ask (.press .attack) (.pressing left (now + attackMs))

/-- The first poll of a plan. -/
def Plan.start (device : Device) (attackMs now : Nat) (action : Action) :
    Plan → Progress × Option Exchange
  | .hold input ms => device.ask (.down input) (.holding input (now + ms))
  | .press input => device.ask (.press input) (.ended .completed)
  | .repeatPress 0 => (.ended .completed, none)
  | .repeatPress (left + 1) => device.askPress attackMs now left
  | .pause ms => (.pausing (now + ms), none)
  | .move dx dy => device.ask (.move dx dy) (.ended .completed)
  | .invalid => (.ended (.failed (ExecutionError.invalidAction action.text).message), none)

/-- One poll of an action at an instant. -/
def Progress.poll (device : Device) (attackMs now : Nat) (action : Action) (cancelled : Bool)
    (progress : Progress) : Progress × Option Exchange :=
  match progress with
  | .queued => (progress, none)
  | .ended _ => (progress, none)
  | .ready =>
    if cancelled then (.ended .cancelled, none)
    else (action.plan attackMs).start device attackMs now action
  | .holding input due =>
    if cancelled then device.ask (.up input) (.ended .cancelled)
    else if due ≤ now then device.ask (.up input) (.ended .completed)
    else (progress, none)
  | .pressing left due =>
    if cancelled then (.ended .cancelled, none)
    else if due ≤ now then
      match left with
      | 0 => (.ended .completed, none)
      | left + 1 => device.askPress attackMs now left
    else (progress, none)
  | .pausing due =>
    if cancelled then (.ended .cancelled, none)
    else if due ≤ now then (.ended .completed, none)
    else (progress, none)

/-- What is sent when an action is dropped on the way: a held input is let up. -/
def Progress.drop (device : Device) : Progress → Option Exchange
  | .holding input _ => some (.up input, device.respond (.up input))
  | .queued | .ready | .pressing _ _ | .pausing _ | .ended _ => none

end Combo
