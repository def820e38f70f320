-- SUMMARY: An executor with any number of workers: what they share, what each of them knows, and the calls others may make.
import Combo.Clockwork.Step

/-!
# Crews

A stop takes the worker out of its slot at once, and the worker leaves later. A
start finds the slot empty then and hires another worker, so an executor may have
several at a time. They share one board: the phase, the running group, the
listed actions, the token by which the group is cancelled, the gate through which
actions are layered, and what was deferred. Whoever is served last has written
what is there.

A worker whose group is cancelled gives the actions some time to unwind. When that is
over it gives them up: it reports those it has not joined as cancelled, and an
input that one of them holds is let go some time later. The same happens to what
a worker leaves behind that is taken away.

With one worker at a time, of which none is taken away and none gives up, a
crew does what a `Clockwork` does; `Crew.single` is that view of it.
-/

namespace Combo

/-- The round of a worker, in which it runs one group under one token. -/
structure Shift where
  worker : Nat
  round : Nat
  deriving DecidableEq, Repr

/-- An action that can be cancelled by its key, and where its entry is. -/
structure Listing where
  key : String
  kind : Kind
  worker : Nat
  position : Nat
  deriving DecidableEq, Repr

/-- What the workers of an executor share. -/
structure Board where
  phase : Phase := .idle
  /-- The running group; an interrupted one is not shown any more. -/
  current : Option Group := none
  /-- The actions that can be cancelled by their keys, in order of acceptance. -/
  listings : List Listing := []
  /-- Under whose token the running group is. -/
  token : Option Shift := none
  /-- The worker that takes in layered actions. -/
  gate : Option Nat := none
  /-- Whether the group behind the gate passed the focus check. -/
  focused : Bool := false
  deferred : Deferred := {}
  deriving DecidableEq

/-- What a worker knows of the actions it waits for. -/
structure Ledger where
  /-- Where actions were layered on under the token of another round than that of the worker. -/
  guests : List (Nat × Shift) := []
  /-- The positions whose outcomes the worker has. -/
  joined : List Nat := []
  /-- When the worker gives up the actions of a cancelled group. -/
  deadline : Option Nat := none
  deriving DecidableEq, Repr

/-- Where a worker stands. -/
inductive Post where
  | checking
  /-- About to ask for a group. -/
  | asking
  /-- Holding a group that is not dispatched yet. -/
  | taken (ticket : Ticket)
  | running (step : Step) (run : Run) (ledger : Ledger)
  /-- About to hand in a report; `faulty` when the worker has to rest afterwards. -/
  | reporting (report : Report) (faulty : Bool)
  | sleeping (due : Nat)
  /-- Dead, and still in its slot: the feed crashed. -/
  | crashed
  | gone
  deriving DecidableEq

/-- One of the workers. -/
structure Member where
  /-- Whether the worker has been told to stop. -/
  stopping : Bool := false
  /-- How many groups it has dispatched. -/
  round : Nat := 0
  post : Post := .checking
  deriving DecidableEq

/-- An input that an action of a worker holds that has given it up. -/
structure Leftover where
  shift : Shift
  /-- The number of the group. -/
  group : Nat
  position : Nat
  input : Input
  deriving DecidableEq, Repr

/-- A command and the round it was sent in. -/
structure Sent where
  shift : Shift
  call : Call
  deriving DecidableEq, Repr

/-- An executor with its feed and the clock, and with every worker it ever had. -/
structure Crew (φ : Type) where
  now : Nat := 0
  feed : φ
  engine : Engine
  target : Target
  device : Device := {}
  focus : Focus := {}
  board : Board := {}
  /-- The worker that was started and not told to stop. -/
  slot : Option Nat := none
  /-- The workers, in the order in which they were hired. -/
  members : List Member := []
  leftovers : List Leftover := []
  /-- Every command sent, oldest first. -/
  sent : List Sent := []
  deriving DecidableEq

/-! ## Entries under tokens -/

/-- The round under whose token the action at a position is. -/
def Ledger.shiftAt (own : Shift) (l : Ledger) (position : Nat) : Shift :=
  (l.guests.lookup position).getD own

namespace Run

/-- The run after the tokens of some rounds were cancelled. -/
def cancelUnder (hit : Shift → Bool) (own : Shift) (ledger : Ledger) (r : Run) : Run :=
  { r with
    cancelled := r.cancelled || hit own
    entries := r.entries.mapIdx fun position e =>
      if hit (ledger.shiftAt own position) then e.cancel else e }

/-- The run of a worker after some listed actions were cancelled. -/
def cancelListed (listings : List Listing) (worker : Nat) (r : Run) : Run :=
  { r with
    entries := r.entries.mapIdx fun position e =>
      if listings.any fun l => l.worker == worker && l.position == position then e.cancel else e }

/-- Whether all started actions have ended, and the worker knows how. -/
def isJoined (ledger : Ledger) (r : Run) : Bool :=
  r.entries.zipIdx.all fun (e, position) =>
    e.progress.isQueued || (e.progress.isEnded && ledger.joined.contains position)

/-- The position of the first action that has ended without the worker knowing. -/
def joinable? (ledger : Ledger) (r : Run) : Option Nat :=
  r.entries.zipIdx.findSome? fun (e, position) =>
    if e.progress.isEnded && !ledger.joined.contains position then some position else none

end Run

/-- An action as a worker reports it that gives it up: without the outcome of a crash, or one unknown. -/
def Entry.giveUp (known : Bool) (e : Entry) : Entry :=
  if known && e.progress != .ended (.failed ExecutionError.crash.message) then e
  else { e with progress := .ended .cancelled }

/-- The run as a worker reports it that gives it up. -/
def Run.giveUp (ledger : Ledger) (r : Run) : Run :=
  { r with entries := r.entries.mapIdx fun position e => e.giveUp (ledger.joined.contains position) }

/-- The inputs that the actions of a run hold. -/
def Run.leftovers (shift : Shift) (r : Run) : List Leftover :=
  r.entries.zipIdx.filterMap fun (e, position) =>
    match e.progress with
    | .holding input _ => some ⟨shift, r.id, position, input⟩
    | _ => none

/-! ## Workers -/

namespace Member

/-- A worker after something happened to its run. -/
def mapRun (f : Ledger → Run → Run) (m : Member) : Member :=
  match m.post with
  | .running step run ledger => { m with post := .running step (f ledger run) ledger }
  | _ => m

/-- A worker that is told to stop; a dead one is gone. -/
def stop (m : Member) : Member :=
  { m with stopping := true, post := if m.post = .crashed then .gone else m.post }

/-- Whether a worker that is told to stop is kept waiting, so that it can be taken away. -/
def isAbortable (m : Member) : Bool :=
  m.stopping &&
    match m.post with
    | .checking | .sleeping _ | .running (.settling _) _ _ | .running (.joining _) _ _ => true
    | _ => false

/-- The inputs that the actions of a worker hold. -/
def leftovers (worker : Nat) (m : Member) : List Leftover :=
  match m.post with
  | .running _ run _ => run.leftovers ⟨worker, m.round⟩
  | _ => []

end Member

/-! ## Lists of actions -/

/-- Appends an action to the entries of a worker's run, and lists it under a fresh key. -/
def Listing.enlist (worker : Nat) (cancelled : Bool) (lists : List Entry × List Listing)
    (a : Action) : List Entry × List Listing :=
  let key := freshKey (lists.2.map (·.key)) a.key
  (lists.1 ++ [⟨a, key, cancelled, .queued⟩], lists.2 ++ [⟨key, a.kind, worker, lists.1.length⟩])

/-- Appends an action of a dequeued group; one that is hit by an interrupt is not listed. -/
def Listing.accept (d : Deferred) (worker : Nat) (cancelled : Bool)
    (lists : List Entry × List Listing) (a : Action) : List Entry × List Listing :=
  if d.hits a then (Run.skip lists.1 a, lists.2) else enlist worker cancelled lists a

namespace Crew

variable {φ : Type}

/-- An executor that nothing has happened to yet, with its feed. -/
def new (feed : φ) (engine : Engine) (target : Target) (device : Device) (focus : Focus) : Crew φ where
  feed
  engine
  target
  device
  focus

/-! ## Views -/

/-- Whether a worker is in the slot. -/
def isStarted (c : Crew φ) : Bool := c.slot.isSome

/-- The keys of the listed actions, in order of acceptance. -/
def keys (c : Crew φ) : List String := c.board.listings.map (·.key)

/-- Every command sent, oldest first. -/
def calls (c : Crew φ) : List Call := c.sent.map (·.call)

/-- The commands that were carried out, oldest first. -/
def events (c : Crew φ) : List Call := c.calls.filter (·.response == .done)

/-- The inputs pushed down more often than let up. -/
def held (c : Crew φ) : List Input := heldAfter (c.events.map (·.command))

/-! ## One worker, and all of them -/

/-- Another worker in the place of one. -/
def setMember (c : Crew φ) (worker : Nat) (m : Member) : Crew φ :=
  { c with members := c.members.set worker m }

/-- Sets where a worker stands. -/
def setPost (c : Crew φ) (worker : Nat) (post : Post) : Crew φ :=
  { c with members := c.members.modify worker fun m => { m with post } }

/-- Does something to the run of every worker. -/
def mapRuns (f : Nat → Shift → Ledger → Run → Run) (c : Crew φ) : Crew φ :=
  { c with members := c.members.mapIdx fun worker m => m.mapRun (f worker ⟨worker, m.round⟩) }

/-- Cancels everything that is under some tokens. -/
def cancelUnder (hit : Shift → Bool) (c : Crew φ) : Crew φ :=
  c.mapRuns fun _ own ledger run => run.cancelUnder hit own ledger

/-- Cancels some listed actions. -/
def cancelListed (listings : List Listing) (c : Crew φ) : Crew φ :=
  c.mapRuns fun worker _ _ run => run.cancelListed listings worker

/-! ## Calls -/

/-- Interrupts everything; the number of actions that were listed. -/
def interruptAll (c : Crew φ) : Crew φ × Nat :=
  let b := c.board
  let deferred := if b.phase = .dequeuing then { b.deferred with all := true } else b.deferred
  let board := { b with deferred, token := none, current := none, listings := [] }
  ({ (c.cancelUnder fun shift => b.token == some shift).cancelListed b.listings with board },
    b.listings.length)

/-- Interrupts what conflicts with a group; the number of actions that were cancelled. -/
def interruptConflicting (g : Group) (c : Crew φ) : Crew φ × Nat :=
  let b := c.board
  if b.phase = .dequeuing then
    let deferred := { b.deferred with kinds := b.deferred.kinds ++ g.kinds }
    ({ c with board := { b with deferred } }, 0)
  else
    let hit := b.listings.filter (·.kind.interrupted g.kinds)
    let listings := b.listings.filter (!·.kind.interrupted g.kinds)
    ({ c.cancelListed hit with board := { b with listings } }, hit.length)

/-- Whether some actions need the focus. -/
def needsFocus (c : Crew φ) (g : Group) : Bool :=
  c.target.requireFocus && g.kinds.any Kind.needsFocus

/-- Whether the token of a round is cancelled, by itself or because its worker is told to stop. -/
def isCancelled (c : Crew φ) (shift : Shift) : Bool :=
  match c.members[shift.worker]? with
  | some m =>
    m.stopping ||
      match m.post with
      | .running _ run _ => run.cancelled
      | _ => false
  | none => true

/-- Layers a group onto the run behind the gate, or refuses and changes nothing. -/
def layer (g : Group) (c : Crew φ) : Crew φ × Bool :=
  match c.board.gate, c.board.token with
  | some worker, some shift =>
    match c.members[worker]? with
    | some ⟨stopping, round, .running (.joining true) run ledger⟩ =>
      if c.board.phase ≠ .running || c.isCancelled shift || (c.needsFocus g && !c.board.focused) then
        (c, false)
      else
        let (entries, listings) :=
          g.actions.foldl (Listing.enlist worker false) (run.entries, c.board.listings)
        let new := (List.range' run.entries.length g.actions.length).map (·, shift)
        let guests := if shift = ⟨worker, round⟩ then ledger.guests else ledger.guests ++ new
        let current := c.board.current.map fun group =>
          { group with actions := group.actions ++ g.actions }
        ({ c.setMember worker
            ⟨stopping, round, .running (.joining true) { run with entries } { ledger with guests }⟩ with
          board := { c.board with current, listings } }, true)
    | _ => (c, false)
  | _, _ => (c, false)

/-- Serves a request. -/
def serve (c : Crew φ) : Request → Crew φ × Answer
  | .interruptAll => let (c, n) := c.interruptAll; (c, .count n)
  | .interruptConflicting g => let (c, n) := c.interruptConflicting g; (c, .count n)
  | .layer g => let (c, yes) := c.layer g; (c, .accepted yes)

/-- Hires a worker unless there is one in the slot. -/
def start (c : Crew φ) : Crew φ :=
  match c.slot with
  | some _ => c
  | none => { c with members := c.members ++ [{}], slot := some c.members.length }

/-- Takes the worker out of its slot, tells it to stop and interrupts everything. -/
def stop (c : Crew φ) : Crew φ :=
  match c.slot with
  | none => c
  | some worker =>
    let told := { c with slot := none, members := c.members.modify worker Member.stop }
    (told.cancelUnder fun shift => shift.worker == worker).interruptAll.1

/-- Takes a worker away that does not stop; what its actions hold is left over. -/
def abort (worker : Nat) (c : Crew φ) : Crew φ :=
  match c.members[worker]? with
  | some m =>
    if m.isAbortable then
      { c.setPost worker .gone with leftovers := c.leftovers ++ m.leftovers worker }
    else c
  | none => c

end Crew

end Combo
