-- SUMMARY: Input devices and focus control: what can be asked of them, how they answer, and the record of what was done.
import Combo.Input.Basic
import Combo.Input.Error

/-!
# Devices and focus

A device is asked to push an input down, to let it up, to press it, or to move
the mouse. It answers that this is done, refuses with an error, or crashes. A
recording device does everything but what it is told to refuse or to crash on; a
device without support refuses everything.

Focus control tells whether the game window is active and activates it.
-/

namespace Combo

/-- What can be asked of an input device. -/
inductive Command where
  | down (input : Input)
  | up (input : Input)
  | press (input : Input)
  | move (dx dy : Int)
  deriving DecidableEq, Repr

/-- A command as a record shows it. -/
def Command.text : Command → String
  | .down input => "down " ++ input.name
  | .up input => "up " ++ input.name
  | .press input => "press " ++ input.name
  | .move dx dy => "move " ++ Number.intText dx ++ " " ++ Number.intText dy

/-- How a device answers a command. -/
inductive Response where
  | done
  | refused (error : InputError)
  | crashed
  deriving DecidableEq, Repr

/-- An input device: whether it works at all, and the inputs it refuses or crashes on. -/
structure Device where
  supported : Bool := true
  /-- Every command on these inputs is refused. -/
  failing : List Input := []
  /-- Pushing down or pressing these inputs crashes. -/
  crashing : List Input := []
  deriving DecidableEq, Repr, Inhabited

namespace Device

/-- The error of a refused command on an input. -/
def failure (input : Input) : InputError := .device ("mock failure on " ++ input.name)

/-- The answer to a command on one input. -/
def respondOn (d : Device) (mayCrash : Bool) (input : Input) : Response :=
  if !d.supported then .refused .unsupported
  else if mayCrash && d.crashing.contains input then .crashed
  else if d.failing.contains input then .refused (failure input)
  else .done

/-- The answer to a command. -/
def respond (d : Device) : Command → Response
  | .down input => d.respondOn true input
  | .press input => d.respondOn true input
  | .up input => d.respondOn false input
  | .move _ _ => if d.supported then .done else .refused .unsupported

/-- Makes every command on an input be refused. -/
def failOn (d : Device) (input : Input) : Device := { d with failing := input :: d.failing }

end Device

/-- The inputs pushed down more often than let up, in the order of their pushes. -/
def heldAfter (commands : List Command) : List Input :=
  commands.foldl (fun held command =>
    match command with
    | .down input => held ++ [input]
    | .up input => held.erase input
    | .press _ => held
    | .move _ _ => held) []

/-! ## Recording -/

/-- A device together with the commands it has carried out, oldest first. -/
structure Recorder where
  device : Device := {}
  events : List Command := []
  deriving DecidableEq, Repr, Inhabited

namespace Recorder

/-- Asks the device for a command and records it when it is done. -/
def perform (r : Recorder) (command : Command) : Recorder × Response :=
  match r.device.respond command with
  | .done => ({ r with events := r.events ++ [command] }, .done)
  | .refused e => (r, .refused e)
  | .crashed => (r, .crashed)

/-- A press made of a push and a release. -/
def pressInTwo (r : Recorder) (input : Input) : Recorder × Response :=
  match r.perform (.down input) with
  | (r', .done) => r'.perform (.up input)
  | refused => refused

/-- How often a command was carried out. -/
def count (r : Recorder) (command : Command) : Nat := r.events.count command

/-- The inputs pushed down more often than let up. -/
def held (r : Recorder) : List Input := heldAfter r.events

/-- Forgets what was done. -/
def clear (r : Recorder) : Recorder := { r with events := [] }

end Recorder

/-! ## Focus -/

/-- Control over the focus of the game window. -/
structure Focus where
  supported : Bool := true
  active : Bool := true
  failing : Bool := false
  /-- How often activation was tried. -/
  activations : Nat := 0
  deriving DecidableEq, Repr, Inhabited

/-- Whether the game window is seen to be active. -/
def Focus.isActive (f : Focus) : Bool := f.supported && f.active

/-- Tries to activate the game window. -/
def Focus.activate (f : Focus) : Focus × Option InputError :=
  if !f.supported then (f, some .unsupported)
  else
    let tried := { f with activations := f.activations + 1 }
    if f.failing then (tried, some (.windowNotFound "mock"))
    else ({ tried with active := true }, none)

end Combo
