-- SUMMARY: An executor with its feed and the clock: the single steps of the worker and of the actions.
import Combo.Executor.Basic

/-!
# Single steps

A feed hands out groups and takes in reports. A system is an executor with its
feed and a clock. Everything that happens in it is a sequence of single steps: a
step of the worker, a poll of one action, the passing of time, or a call from
outside. Work takes no time, and time passes only when nothing is left to do. A
cancelled run is wound up at the instant of its cancellation, so the worker does not
watch the time it has for that, which is right as long as it has any.

This is the view of one worker at a time, as it is behind the facade of an
environment. A start that does not wait for a pending stop, and a worker without
any time to unwind, are in `Combo.Crew.Basic`.
-/

namespace Combo

/-- What a feed gives the worker that asks for a group. -/
inductive Handout where
  | group (ticket : Ticket)
  | empty
  /-- The feed crashed and took the worker with it. -/
  | crash
  deriving DecidableEq

/-- Where an executor gets its groups from and hands in its reports. -/
class Feed (φ : Type) where
  /-- Hands out the next group at an instant. -/
  next : Nat → φ → Handout × φ
  /-- Takes in the report of a group. -/
  complete : Report → φ → φ
  /-- The groups that are still to be handed out. -/
  left : φ → List Group

/-- An executor with its feed and the clock, in milliseconds. -/
structure Clockwork (φ : Type) where
  now : Nat := 0
  feed : φ
  executor : Executor

namespace Clockwork

variable {φ : Type}

/-- Sets the stage of the worker. -/
def setStage (s : Clockwork φ) (stage : Stage) : Clockwork φ :=
  { s with executor := s.executor.setStage stage }

/-- Sets phase and stage. -/
def enter (s : Clockwork φ) (phase : Phase) (stage : Stage) : Clockwork φ :=
  { s with executor := { s.executor.setStage stage with phase } }

/-- The worker is gone, and the phase is idle. -/
def exit (s : Clockwork φ) : Clockwork φ :=
  { s with executor := { s.executor with worker := none, phase := .idle } }

/-! ## The worker -/

/-- Whether the worker can go on with a run. -/
def stepReady (now : Nat) (run : Run) : Step → Bool
  | .focusing => true
  | .settling due => run.cancelled || due ≤ now
  | .opening => true
  | .joining accepting => (accepting && run.hasQueued) || run.isDrained
  | .closing _ => true

/-- Whether the worker can go on. -/
def workerReady (s : Clockwork φ) : Bool :=
  match s.executor.worker with
  | none => false
  | some w =>
    match w.stage with
    | .checking => true
    | .asking _ => true
    | .taken _ _ => true
    | .running step run => stepReady s.now run step
    | .reporting _ _ => true
    | .sleeping due => w.stopping || due ≤ s.now
    | .crashed => false

/-- The top of the worker's round: it leaves when told to stop, else it asks for a group. -/
def beginRound (s : Clockwork φ) (stopping : Bool) : Clockwork φ :=
  if stopping then s.exit else s.enter .dequeuing (.asking {})

/-- Asks the feed for a group. -/
def ask [Feed φ] (s : Clockwork φ) (deferred : Deferred) : Clockwork φ :=
  match Feed.next s.now s.feed with
  | (.group ticket, feed) => { s with feed }.setStage (.taken ticket deferred)
  | (.empty, feed) =>
    { s with feed }.enter .idle (.sleeping (s.now + s.executor.engine.pollMs))
  | (.crash, feed) => { s with feed }.setStage .crashed

/-- Dispatches a dequeued group under the interrupts that were deferred to it. -/
def dispatch (s : Clockwork φ) (ticket : Ticket) (deferred : Deferred) : Clockwork φ :=
  let run := Run.dispatch s.executor.target.requireFocus deferred ticket
  s.enter .running (.running (if run.needsFocus then .focusing else .opening) run)

/-- Makes sure that the game window is active, or gives the run up. -/
def seeToFocus (s : Clockwork φ) (run : Run) : Clockwork φ :=
  if s.executor.focus.isActive then s.setStage (.running .opening run)
  else
    let (focus, fault) := s.executor.focus.activate
    let s := { s with executor := { s.executor with focus } }
    match fault with
    | none => s.setStage (.running (.settling (s.now + s.executor.target.settleMs)) run)
    | some e => s.setStage (.running (.closing (some e)) (run.failAll e.message))

/-- A step of the worker that waits for the actions of a run. -/
def join (s : Clockwork φ) (accepting : Bool) (run : Run) : Clockwork φ :=
  if accepting then
    if run.hasQueued then s.setStage (.running (.joining true) run.receive)
    else s.setStage (.running (.joining false) run)
  else s.setStage (.running (.closing none) run)

/-- A step of the worker in a run. -/
def stepRun (s : Clockwork φ) (run : Run) : Step → Clockwork φ
  | .focusing => s.seeToFocus run
  | .settling _ => s.setStage (.running .opening run)
  | .opening => s.setStage (.running (.joining true) run.releaseAll)
  | .joining accepting => s.join accepting run
  | .closing fault => s.enter .idle (.reporting run.report fault.isSome)

/-- Hands in a report; after a fault the worker rests. -/
def handIn [Feed φ] (s : Clockwork φ) (report : Report) (faulty : Bool) : Clockwork φ :=
  { s with feed := Feed.complete report s.feed }.setStage
    (if faulty then .sleeping (s.now + s.executor.engine.backoffMs) else .checking)

/-- One step of the worker; nothing happens when it cannot go on. -/
def workerStep [Feed φ] (s : Clockwork φ) : Clockwork φ :=
  if s.workerReady then
    match s.executor.worker with
    | none => s
    | some w =>
      match w.stage with
      | .checking => s.beginRound w.stopping
      | .asking deferred => s.ask deferred
      | .taken ticket deferred => s.dispatch ticket deferred
      | .running step run => s.stepRun run step
      | .reporting report faulty => s.handIn report faulty
      | .sleeping _ => s.beginRound w.stopping
      | .crashed => s
  else s

/--
The worker finds all started actions ended and closes the run for layering, even
though actions wait to be started; those are started late.
-/
def closeLate (s : Clockwork φ) : Clockwork φ :=
  match s.executor.worker with
  | some ⟨_, .running (.joining true) run⟩ =>
    if run.isDrained then s.setStage (.running (.joining false) run.releaseAll) else s
  | _ => s

/-! ## Actions -/

/-- One poll of the action at a position of the run; nothing happens when it cannot go on. -/
def poll (s : Clockwork φ) (position : Nat) : Clockwork φ :=
  match s.executor.worker with
  | some ⟨_, .running (.joining accepting) run⟩ =>
    match run.entries[position]? with
    | none => s
    | some entry =>
      if entry.runnable s.now then
        let (progress, exchange) :=
          entry.progress.poll s.executor.device s.executor.engine.attackMs s.now entry.action
            entry.cancelled
        let entries := run.entries.set position { entry with progress }
        let calls := match exchange with
          | some (command, response) => [⟨s.now, run.id, position, command, response⟩]
          | none => []
        { s with executor := { s.executor with calls := s.executor.calls ++ calls } }.setStage
          (.running (.joining accepting) { run with entries })
      else s
  | _ => s

/-- The position of the first action that can go on. -/
def runnable? (s : Clockwork φ) : Option Nat :=
  match s.executor.worker with
  | some ⟨_, .running (.joining _) run⟩ => run.runnable? s.now
  | _ => none

/-- Whether neither the worker nor an action can go on. -/
def isQuiet (s : Clockwork φ) : Bool := !s.workerReady && s.runnable?.isNone

/-! ## Time -/

/-- Lets a millisecond pass if there is nothing left to do. -/
def tick (s : Clockwork φ) : Clockwork φ :=
  if s.isQuiet then { s with now := s.now + 1 } else s

/-- The instants that the worker and the actions wait for. -/
def dues (s : Clockwork φ) : List Nat :=
  match s.executor.worker with
  | some ⟨_, .sleeping due⟩ => [due]
  | some ⟨_, .running (.settling due) _⟩ => [due]
  | some ⟨_, .running (.joining _) run⟩ => run.entries.filterMap (·.progress.due?)
  | _ => []

end Clockwork

end Combo
