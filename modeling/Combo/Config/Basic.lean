-- SUMMARY: The configuration: its four sections with their defaults, and the limits an engine accepts.
import Combo.Number.Decimal
import Combo.Input.Basic
import Combo.Input.Key

/-!
# Configuration

Four sections: general settings, limits and timings of the engine, the game
window, and the key names of the inputs. Every field has a default.
-/

namespace Combo

/-- How a fresh script is reconciled with the work already queued. -/
inductive Mode where
  /-- Interrupt everything, drop pending work, queue the new script. -/
  | replace
  /-- Interrupt only what conflicts, drop pending work, layer or queue the new script. -/
  | merge
  deriving DecidableEq, Repr, Inhabited

/-- The name of a mode. -/
def Mode.name : Mode → String
  | .replace => "replace"
  | .merge => "merge"

/-- The mode with this name. -/
def Mode.ofName? (name : String) : Option Mode :=
  [Mode.replace, Mode.merge].find? fun mode => mode.name == name

/-- The message about a name that is no mode. -/
def Mode.unknownMessage (name : String) : String := "Unknown queue mode: " ++ name

/-- General settings. -/
structure General where
  logLevel : String := "info"
  deriving DecidableEq, Inhabited

/-- Limits and timings of the engine. -/
structure Engine where
  /-- The longest length an action may have, in seconds. -/
  maxActionSeconds : Float := 10.0
  mode : Mode := .replace
  debug : Bool := false
  /-- Consecutive refused scripts before the limit error. -/
  maxErrorCount : Nat := 5
  /-- Milliseconds between two looks at an empty queue. -/
  pollMs : Nat := 50
  /-- Milliseconds of rest after a group that could not run. -/
  backoffMs : Nat := 1000
  /-- Milliseconds that stopping waits for the worker. -/
  stopMs : Nat := 5000
  /-- Milliseconds a cancelled group may spend releasing inputs. -/
  cleanupMs : Nat := 1000
  /-- Finished groups kept for reports. -/
  historyLimit : Nat := 5
  /-- Milliseconds between the presses of an attack. -/
  attackMs : Nat := 200
  deriving DecidableEq, Inhabited

/-- The game window. -/
structure Target where
  windowTitle : String := "Genshin Impact"
  /-- Milliseconds between activating the window and sending input to it. -/
  settleMs : Nat := 200
  requireFocus : Bool := true
  deriving DecidableEq, Inhabited

/-- The key names of the inputs. -/
structure KeyNames where
  forward : String := "w"
  left : String := "a"
  back : String := "s"
  right : String := "d"
  skill : String := "e"
  burst : String := "q"
  attack : String := "mouse_left"
  sprint : String := "shift"
  jump : String := "space"
  interact : String := "f"
  altInteract : String := "t"
  member1 : String := "1"
  member2 : String := "2"
  member3 : String := "3"
  member4 : String := "4"
  deriving DecidableEq, Inhabited

/-- A whole configuration. -/
structure Config where
  general : General := {}
  engine : Engine := {}
  target : Target := {}
  keys : KeyNames := {}
  deriving DecidableEq, Inhabited

/-! ## Limits -/

namespace Engine

/-- A setting that would make the engine unusable. -/
inductive Fault where
  | maxActionSeconds (given : Float)
  | maxErrorCount
  | attackMs
  deriving DecidableEq

/-- The wording of a fault. -/
def Fault.message : Fault → String
  | .maxActionSeconds given =>
    "engine.max_action_duration_secs must be positive, got " ++ Number.doubleText given
  | .maxErrorCount => "engine.max_error_count must be at least 1"
  | .attackMs => "engine.attack_interval_ms must be at least 1"

/-- The first setting that would make the engine unusable. -/
def fault? (e : Engine) : Option Fault :=
  if !e.maxActionSeconds.isFinite || e.maxActionSeconds ≤ 0.0 then
    some (.maxActionSeconds e.maxActionSeconds)
  else if e.maxErrorCount = 0 then some .maxErrorCount
  else if e.attackMs = 0 then some .attackMs
  else none

end Engine

/-! ## Bindings -/

/-- The inputs with their key names, in the order in which they are resolved. -/
def KeyNames.table (k : KeyNames) : List (Input × String) :=
  [(.forward, k.forward), (.left, k.left), (.back, k.back), (.right, k.right),
   (.skill, k.skill), (.burst, k.burst), (.attack, k.attack), (.sprint, k.sprint),
   (.jump, k.jump), (.interact, k.interact), (.altInteract, k.altInteract),
   (.member 1, k.member1), (.member 2, k.member2), (.member 3, k.member3),
   (.member 4, k.member4)]

/-- The keys bound to inputs. -/
structure Bindings where
  table : List (Input × Key)
  deriving DecidableEq

/-- Resolves every key name; the first unknown one is the error. -/
def KeyNames.bindings (k : KeyNames) : Except InputError Bindings := do
  let table ← k.table.mapM fun (input, name) => return (input, ← Key.ofName name)
  return ⟨table⟩

/-- The key bound to an input. -/
def Bindings.resolve (b : Bindings) (input : Input) : Except InputError Key :=
  match b.table.lookup input with
  | some key => .ok key
  | none => .error (.unknownKey input.name)

end Combo
