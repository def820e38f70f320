-- SUMMARY: The environment: a queue and an executor that work on each other.
import Combo.Clockwork.Schedule
import Combo.Queue.Basic

/-!
# The environment

In an environment the queue is the feed of the executor, and the executor is
what the queue controls. `afterAll` runs an environment through any row of
happenings; scripts may come in between any two steps of the worker.
-/

namespace Combo

instance : Feed Queue where
  next now q :=
    match q.next now with
    | (some t, q) => (.group t, q)
    | (none, q) => (.empty, q)
  complete := Queue.complete
  left q := q.pending.map (·.group)

/-- A queue and an executor wired together. -/
abbrev Environment := Clockwork Queue

namespace Environment

/-- The environment of a configuration with a device and focus control. -/
def new (engine : Engine) (target : Target) (device : Device) (focus : Focus) : Environment where
  feed := { engine }
  executor := { engine, target, device, focus }

/-- Starts the executor. -/
def start (e : Environment) : Environment := { e with executor := e.executor.start }

/-- Submits a script. -/
def add (script : String) (e : Environment) : Except QueueError Nat × Environment :=
  let (result, feed, executor) := e.feed.add e.now script e.executor
  (result, { e with feed, executor })

/-- Drops all work and interrupts what is running. -/
def clear (e : Environment) : Environment :=
  let (feed, executor) := e.feed.clear e.executor
  { e with feed, executor }

/-- Advances the clock. -/
def advance (ms : Nat) (e : Environment) : Environment := Clockwork.advance id ms e

/-- Refuses further scripts, cancels everything and waits for the worker. -/
def stop (e : Environment) : Environment :=
  let (feed, executor) := e.feed.stop e.executor
  Clockwork.stop id ({ e with feed, executor } : Environment)

/-- Takes the next group from the queue by hand. -/
def next (e : Environment) : Option Ticket × Environment :=
  let (ticket, feed) := e.feed.next e.now
  (ticket, { e with feed })

/-- The snapshot of the queue. -/
def status (e : Environment) : Queue.Status := e.feed.status e.now

/-- The same environment without the memory of refused scripts. -/
def resetErrors (e : Environment) : Environment := { e with feed := e.feed.resetErrors }

/-! ## Runs -/

/-- One thing that can happen to an environment in which only the worker takes groups. -/
inductive Happening where
  | add (script : String)
  | clear
  | resetErrors
  /-- The queue refuses scripts from now on, and the worker is told to stop. -/
  | stop
  | start
  | work
  | closeLate
  | poll (position : Nat)
  | tick
  | setFocus (active failing : Bool)
  | setDevice (device : Device)
  deriving DecidableEq

/-- The environment after something happened to it. -/
def after (e : Environment) : Happening → Environment
  | .add script => (e.add script).2
  | .clear => e.clear
  | .resetErrors => e.resetErrors
  | .stop =>
    let (feed, executor) := e.feed.stop e.executor
    ({ e with feed, executor } : Environment).move .requestStop
  | .start => e.move .start
  | .work => e.move .work
  | .closeLate => e.move .closeLate
  | .poll position => e.move (.poll position)
  | .tick => e.move .tick
  | .setFocus active failing => e.move (.setFocus active failing)
  | .setDevice device => e.move (.setDevice device)

/-- The environment after many things happened to it, one after another. -/
def afterAll (e : Environment) (happenings : List Happening) : Environment :=
  happenings.foldl after e

end Environment

end Combo
