-- SUMMARY: The standard schedule: which move comes next, settling at an instant, advancing the clock, stopping.
import Combo.Clockwork.Move

/-!
# The standard schedule

The schedule chooses one play of the many that are possible. At an instant it
polls the first action that can go on, and where there is none it lets the worker
take a step, until nothing is left to do. Advancing the clock settles the system,
moves on to the next instant that something waits for, and so on to the end.
Before the worker asks its feed, whoever watches the system may step in;
`interject` is what they do then.
-/

namespace Combo.Clockwork

variable {φ : Type} [Feed φ]

/-- Whether the worker is about to ask its feed. -/
def isAsking (s : Clockwork φ) : Bool :=
  match s.executor.worker with
  | some ⟨_, .asking _⟩ => true
  | _ => false

/-- The next move at this instant, if there is anything left to do. -/
def nextMove? (s : Clockwork φ) : Option Move :=
  match s.runnable? with
  | some position => some (.poll position)
  | none => if s.workerReady then some .work else none

/-- The system after its next move, with an interjection before the feed is asked. -/
def next? (interject : Clockwork φ → Clockwork φ) (s : Clockwork φ) : Option (Clockwork φ) :=
  s.nextMove?.map fun m => if m = .work && s.isAsking then (interject s).move m else s.move m

/-- At most `fuel` moves. -/
def steps (interject : Clockwork φ → Clockwork φ) : Nat → Clockwork φ → Clockwork φ
  | 0, s => s
  | fuel + 1, s =>
    match s.next? interject with
    | some s' => steps interject fuel s'
    | none => s

/-! ## How much is left to do -/

/-- The presses an action may still make. -/
def pressesLeft (attackMs : Nat) (e : Entry) : Nat :=
  match e.progress with
  | .pressing left _ => left
  | .queued | .ready =>
    match e.action.plan attackMs with
    | .repeatPress n => n
    | _ => 0
  | _ => 0

/-- Enough moves for an entry at one instant. -/
def entryWork (attackMs : Nat) (e : Entry) : Nat := 4 + pressesLeft attackMs e

/-- Enough moves for an action that is still to be handed out. -/
def actionWork (attackMs : Nat) (a : Action) : Nat :=
  match a.plan attackMs with
  | .repeatPress n => 5 + n
  | _ => 5

/-- Enough moves for a group that is still to be handed out. -/
def groupWork (attackMs : Nat) (g : Group) : Nat :=
  12 + (g.actions.map (actionWork attackMs)).foldr (· + ·) 0

/-- Enough moves for everything that can happen at one instant. -/
def work (s : Clockwork φ) : Nat :=
  let attackMs := s.executor.engine.attackMs
  let running := match s.executor.run? with
    | some run => (run.entries.map (entryWork attackMs)).foldr (· + ·) 0
    | none => 0
  24 + running + ((Feed.left s.feed).map (groupWork attackMs)).foldr (· + ·) 0

/-- Lets everything happen that can happen at this instant. -/
def settle (interject : Clockwork φ → Clockwork φ) (s : Clockwork φ) : Clockwork φ :=
  steps interject s.work s

/-! ## The clock -/

/-- The instant after this one at which something is due, if it is not after `limit`. -/
def nextInstant (s : Clockwork φ) (limit : Nat) : Nat :=
  (s.dues.filter (s.now < ·)).foldl min limit

/-- Advances the clock by `ms` milliseconds. -/
def advance (interject : Clockwork φ → Clockwork φ) (ms : Nat) (s : Clockwork φ) : Clockwork φ :=
  let s := s.settle interject
  if ms = 0 then s
  else
    let pause := max 1 (s.nextInstant (s.now + ms) - s.now)
    advance interject (ms - pause) { s with now := s.now + pause }
termination_by ms
decreasing_by omega

/-- Stops the worker and waits for it; without any time to wait it is taken away where it stands. -/
def stop (interject : Clockwork φ → Clockwork φ) (s : Clockwork φ) : Clockwork φ :=
  let stopped := { s with executor := s.executor.requestStop }
  if s.executor.engine.stopMs = 0 then
    { stopped with executor := stopped.executor.abort s.now }
  else stopped.settle interject

end Combo.Clockwork
