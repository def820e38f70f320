-- SUMMARY: The standard schedule of a crew: which move comes next, settling at an instant, advancing the clock, stopping.
import Combo.Clockwork.Supply
import Combo.Crew.Move

/-!
# The standard schedule of a crew

The schedule chooses one play of the many that are possible. At an instant it
goes through the workers in the order in which they were hired. A worker that an
action woke by being layered on looks for it first, and finds the group
cancelled if it is; then come the actions that can go on, the outcomes to be
taken, and the next step of the worker. When no worker has anything left to do,
the actions that were given up let go. Advancing the clock goes from one instant
that something waits for to the next.

Before a worker asks its feed, whoever watches the crew may step in.
-/

namespace Combo

/-- The next move of a worker at an instant, if it has anything left to do. -/
def Member.nextMove? (now worker : Nat) (m : Member) : Option Crew.Move :=
  let woken := match m.post with
    | .running (.joining _) run _ => run.hasQueued
    | _ => false
  if woken && m.canNotice then some (.notice worker)
  else if m.canGiveUp now then some (.giveUp worker)
  else match m.runnable? now, m.joinable? with
    | some position, _ => some (.poll worker position)
    | none, some position => some (.join worker position)
    | none, none =>
      if m.isReady now then some (.work worker)
      else if m.canNotice then some (.notice worker)
      else none

/-- The instants that a worker and its actions wait for. -/
def Member.dues (m : Member) : List Nat :=
  match m.post with
  | .sleeping due => [due]
  | .running (.settling due) _ _ => [due]
  | .running (.joining _) run ledger =>
    ledger.deadline.toList ++ run.entries.filterMap (·.progress.due?)
  | _ => []

namespace Crew

variable {φ : Type} [Feed φ]

/-- The next move at this instant, if there is anything left to do. -/
def nextMove? (c : Crew φ) : Option Move :=
  match c.members.zipIdx.findSome? fun (m, worker) => m.nextMove? c.now worker with
  | some move => some move
  | none => if c.leftovers.isEmpty then none else some (.letGo 0)

/-- Whether a move asks the feed. -/
def asks (c : Crew φ) : Move → Bool
  | .work worker => c.members[worker]?.any (·.post == .asking)
  | _ => false

/-- The crew after its next move, with an interjection before the feed is asked. -/
def next? (interject : Crew φ → Crew φ) (c : Crew φ) : Option (Crew φ) :=
  c.nextMove?.map fun m => if c.asks m then (interject c).move m else c.move m

/-- At most `fuel` moves. -/
def steps (interject : Crew φ → Crew φ) : Nat → Crew φ → Crew φ
  | 0, c => c
  | fuel + 1, c =>
    match c.next? interject with
    | some c' => steps interject fuel c'
    | none => c

/-- Enough moves for everything that can happen at one instant. -/
def fuel (c : Crew φ) : Nat :=
  let attackMs := c.engine.attackMs
  let total : List Nat → Nat := List.foldl (· + ·) 0
  let running := c.members.map fun m =>
    match m.post with
    | .running _ run _ => total (run.entries.map fun e => 1 + Clockwork.entryWork attackMs e)
    | _ => 0
  let waiting := (Feed.left c.feed).map fun g => g.actions.length + Clockwork.groupWork attackMs g
  24 + 8 * c.members.length + total running + total waiting + 2 * c.leftovers.length

/-- Lets everything happen that can happen at this instant. -/
def settle (interject : Crew φ → Crew φ) (c : Crew φ) : Crew φ := steps interject c.fuel c

/-- The instant after this one at which something is due, if it is not after `limit`. -/
def nextInstant (c : Crew φ) (limit : Nat) : Nat :=
  ((c.members.flatMap Member.dues).filter (c.now < ·)).foldl min limit

/-- Advances the clock by `ms` milliseconds. -/
def advance (interject : Crew φ → Crew φ) (ms : Nat) (c : Crew φ) : Crew φ :=
  let c := c.settle interject
  if ms = 0 then c
  else
    let pause := max 1 (c.nextInstant (c.now + ms) - c.now)
    advance interject (ms - pause) { c with now := c.now + pause }
termination_by ms
decreasing_by omega

/-- Stops the worker in the slot and waits for it; without any time to wait it is taken away. -/
def stopAndWait (interject : Crew φ → Crew φ) (c : Crew φ) : Crew φ :=
  match c.slot with
  | none => c
  | some worker =>
    if c.engine.stopMs = 0 then (c.stop.abort worker).settle interject
    else c.stop.settle interject

/-! ## Hand-fed crews -/

/-- Makes one request and notes the answer. -/
def interjectOne (c : Crew Supply) (request : Request) : Crew Supply :=
  let phase := c.board.phase
  let (c, answer) := c.serve request
  { c with feed := { c.feed with answers := c.feed.answers ++ [(c.feed.handed, phase, answer)] } }

/-- Makes the requests that come with the next group. -/
def interject (c : Crew Supply) : Crew Supply := c.feed.requests.foldl interjectOne c

end Crew

end Combo
