-- SUMMARY: Moves of a crew: the steps of each worker and of each action, the passing of time, and the calls from outside.
import Combo.Crew.Basic

/-!
# Moves of a crew

A move is a step of one of the workers, a poll of one of its actions, the
unwinding of an action that was given up, the passing of a millisecond, or a call
from outside. A move that cannot be made changes nothing, and a play is a row of
moves in any order.

A worker that waits for its actions joins those that have ended, takes in those
layered on, and notices when its group is cancelled. From then on it takes nothing
in any more, and at the deadline it gives up.
-/

namespace Combo

namespace Member

/-- Whether a worker can take in a layered action. -/
def canReceive (accepting : Bool) (run : Run) (ledger : Ledger) : Bool :=
  accepting && run.hasQueued && ledger.deadline.isNone

/-- Whether a worker can go on with a run. -/
def stepReady (now : Nat) (run : Run) (ledger : Ledger) : Step → Bool
  | .focusing => true
  | .settling due => run.cancelled || due ≤ now
  | .opening => true
  | .joining accepting => canReceive accepting run ledger || run.isJoined ledger
  | .closing _ => true

/-- Whether a worker can go on. -/
def isReady (now : Nat) (m : Member) : Bool :=
  match m.post with
  | .checking | .asking | .taken _ | .reporting _ _ => true
  | .running step run ledger => stepReady now run ledger step
  | .sleeping due => m.stopping || due ≤ now
  | .crashed | .gone => false

/-- Whether a worker is yet to notice that its group is cancelled. -/
def canNotice (m : Member) : Bool :=
  match m.post with
  | .running (.joining _) run ledger => run.cancelled && ledger.deadline.isNone
  | _ => false

/-- Whether a worker may give up the actions it waits for. -/
def canGiveUp (now : Nat) (m : Member) : Bool :=
  match m.post with
  | .running (.joining _) _ ledger => ledger.deadline.any (· ≤ now)
  | _ => false

/-- The position of the first action of a worker that a poll would get on with. -/
def runnable? (now : Nat) (m : Member) : Option Nat :=
  match m.post with
  | .running (.joining _) run _ => run.runnable? now
  | _ => none

/-- The position of the first action that has ended without its worker knowing. -/
def joinable? (m : Member) : Option Nat :=
  match m.post with
  | .running (.joining _) run ledger => run.joinable? ledger
  | _ => none

/-- Whether a worker or one of its actions has something left to do. -/
def isBusy (now : Nat) (m : Member) : Bool :=
  m.isReady now || m.canNotice || m.canGiveUp now || (m.runnable? now).isSome || m.joinable?.isSome

end Member

/-- The board as a worker leaves it that is done with its group. -/
def Board.wiped (b : Board) : Board :=
  { b with phase := .idle, current := none, listings := [], token := none, gate := none, focused := false }

/-- The board after a group was dispatched in some round; an interrupted one is not shown. -/
def Board.dispatched (t : Ticket) (shift : Shift) (listings : List Listing) (b : Board) : Board :=
  { b with
    phase := .running
    deferred := {}
    listings
    current := if b.deferred.all then b.current else some t.group
    token := if b.deferred.all then b.token else some shift }

/-- The run of a dequeued group with these entries. -/
def Run.ofEntries (requireFocus cancelled : Bool) (t : Ticket) (entries : List Entry) : Run where
  id := t.id
  estimate := t.group.estimate
  cancelled
  needsFocus := requireFocus &&
    entries.any fun e => e.progress.isQueued && e.action.kind.needsFocus
  entries

/-- What a worker knows when it dispatches a group: which actions it will not start. -/
def Ledger.ofEntries (entries : List Entry) : Ledger where
  joined := (List.range entries.length).filter fun position =>
    entries[position]?.any (·.progress.isEnded)

namespace Crew

variable {φ : Type}

/-- Sets the phase, and where a worker stands. -/
def enter (c : Crew φ) (worker : Nat) (phase : Phase) (post : Post) : Crew φ :=
  { c.setPost worker post with board := { c.board with phase } }

/-! ## The workers -/

/-- The top of a worker's round: it leaves when told to stop, else it asks for a group. -/
def beginRound (c : Crew φ) (worker : Nat) (stopping : Bool) : Crew φ :=
  if stopping then c.enter worker .idle .gone
  else { c.setPost worker .asking with board := { c.board with phase := .dequeuing, deferred := {} } }

/-- Asks the feed for a group. A worker on which it crashes is dead, or gone if nobody keeps it. -/
def ask [Feed φ] (c : Crew φ) (worker : Nat) (stopping : Bool) : Crew φ :=
  match Feed.next c.now c.feed with
  | (.group ticket, feed) => { c with feed }.setPost worker (.taken ticket)
  | (.empty, feed) => { c with feed }.enter worker .idle (.sleeping (c.now + c.engine.pollMs))
  | (.crash, feed) => { c with feed }.setPost worker (if stopping then .gone else .crashed)

/-- Dispatches a dequeued group under the interrupts that were deferred. -/
def dispatch (c : Crew φ) (worker : Nat) (m : Member) (t : Ticket) : Crew φ :=
  let d := c.board.deferred
  let lists := t.group.actions.foldl (Listing.accept d worker m.stopping) ([], c.board.listings)
  let run := Run.ofEntries c.target.requireFocus (d.all || m.stopping) t lists.1
  let post : Post :=
    .running (if run.needsFocus then .focusing else .opening) run (Ledger.ofEntries lists.1)
  { c.setMember worker ⟨m.stopping, m.round + 1, post⟩ with
    board := c.board.dispatched t ⟨worker, m.round + 1⟩ lists.2 }

/-- Makes sure that the game window is active, or gives the run up. -/
def seeToFocus (c : Crew φ) (worker : Nat) (run : Run) (ledger : Ledger) : Crew φ :=
  if c.focus.isActive then c.setPost worker (.running .opening run ledger)
  else
    let (focus, fault) := c.focus.activate
    let c := { c with focus }
    match fault with
    | none => c.setPost worker (.running (.settling (c.now + c.target.settleMs)) run ledger)
    | some e => c.setPost worker (.running (.closing (some e)) (run.failAll e.message) ledger)

/-- Closes the run of a worker for layering, and starts what waits to be started. -/
def close (c : Crew φ) (worker : Nat) (run : Run) (ledger : Ledger) : Crew φ :=
  { c.setPost worker (.running (.joining false) run.releaseAll ledger) with
    board := { c.board with gate := none } }

/-- A step of a worker that waits for the actions of a run. -/
def wait (c : Crew φ) (worker : Nat) (accepting : Bool) (run : Run) (ledger : Ledger) : Crew φ :=
  if Member.canReceive accepting run ledger then
    c.setPost worker (.running (.joining true) run.receive ledger)
  else if accepting then c.close worker run ledger
  else c.setPost worker (.running (.closing none) run ledger)

/-- A step of a worker in a run. -/
def stepRun (c : Crew φ) (worker : Nat) (run : Run) (ledger : Ledger) : Step → Crew φ
  | .focusing => c.seeToFocus worker run ledger
  | .settling _ => c.setPost worker (.running .opening run ledger)
  | .opening =>
    { c.setPost worker (.running (.joining true) run.releaseAll ledger) with
      board := { c.board with gate := some worker, focused := run.needsFocus } }
  | .joining accepting => c.wait worker accepting run ledger
  | .closing fault =>
    { c.setPost worker (.reporting run.report fault.isSome) with board := c.board.wiped }

/-- Hands in a report; after a fault the worker rests. -/
def handIn [Feed φ] (c : Crew φ) (worker : Nat) (report : Report) (faulty : Bool) : Crew φ :=
  { c with feed := Feed.complete report c.feed }.setPost worker
    (if faulty then .sleeping (c.now + c.engine.backoffMs) else .checking)

/-- One step of a worker; nothing happens when it cannot go on. -/
def work [Feed φ] (c : Crew φ) (worker : Nat) : Crew φ :=
  match c.members[worker]? with
  | none => c
  | some m =>
    if m.isReady c.now then
      match m.post with
      | .checking => c.beginRound worker m.stopping
      | .asking => c.ask worker m.stopping
      | .taken ticket => c.dispatch worker m ticket
      | .running step run ledger => c.stepRun worker run ledger step
      | .reporting report faulty => c.handIn worker report faulty
      | .sleeping _ => c.beginRound worker m.stopping
      | .crashed | .gone => c
    else c

/--
A worker that has joined all started actions closes its run for layering, even though actions wait to
be started; those are started late.
-/
def closeLate (c : Crew φ) (worker : Nat) : Crew φ :=
  match c.members[worker]? with
  | some ⟨_, _, .running (.joining true) run ledger⟩ =>
    if run.isJoined ledger then c.close worker run ledger else c
  | _ => c

/-! ## Waiting -/

/-- A worker takes the outcome of an action that has ended. -/
def join (c : Crew φ) (worker position : Nat) : Crew φ :=
  match c.members[worker]? with
  | some ⟨_, _, .running (.joining accepting) run ledger⟩ =>
    if run.entries[position]?.any (·.progress.isEnded) && !ledger.joined.contains position then
      c.setPost worker
        (.running (.joining accepting) run { ledger with joined := ledger.joined ++ [position] })
    else c
  | _ => c

/-- A worker notices that its group is cancelled, and gives its actions some time. -/
def notice (c : Crew φ) (worker : Nat) : Crew φ :=
  match c.members[worker]? with
  | some ⟨_, _, .running (.joining accepting) run ledger⟩ =>
    if run.cancelled && ledger.deadline.isNone then
      c.setPost worker
        (.running (.joining accepting) run { ledger with deadline := some (c.now + c.engine.cleanupMs) })
    else c
  | _ => c

/-- A worker gives up the actions it still waits for; what they hold is left over. -/
def giveUp (c : Crew φ) (worker : Nat) : Crew φ :=
  match c.members[worker]? with
  | some ⟨_, round, .running (.joining _) run ledger⟩ =>
    if ledger.deadline.any (· ≤ c.now) then
      { c.setPost worker (.running (.closing none) (run.giveUp ledger) ledger) with
        board := { c.board with gate := none }
        leftovers := c.leftovers ++ run.leftovers ⟨worker, round⟩ }
    else c
  | _ => c

/-! ## Actions -/

/-- One poll of an action of a worker; nothing happens when it cannot go on. -/
def poll (c : Crew φ) (worker position : Nat) : Crew φ :=
  match c.members[worker]? with
  | some ⟨_, round, .running (.joining accepting) run ledger⟩ =>
    match run.entries[position]? with
    | none => c
    | some entry =>
      if entry.runnable c.now then
        let (progress, exchange) :=
          entry.progress.poll c.device c.engine.attackMs c.now entry.action entry.cancelled
        let entries := run.entries.set position { entry with progress }
        let sent := match exchange with
          | some (command, response) =>
            [⟨⟨worker, round⟩, ⟨c.now, run.id, position, command, response⟩⟩]
          | none => []
        { c.setPost worker (.running (.joining accepting) { run with entries } ledger) with
          sent := c.sent ++ sent }
      else c
  | _ => c

/-- An action that was given up lets go of the input it holds. -/
def letGo (c : Crew φ) (index : Nat) : Crew φ :=
  match c.leftovers[index]? with
  | none => c
  | some l =>
    let call : Call := ⟨c.now, l.group, l.position, .up l.input, c.device.respond (.up l.input)⟩
    { c with leftovers := c.leftovers.eraseIdx index, sent := c.sent ++ [⟨l.shift, call⟩] }

/-! ## Time -/

/-- Whether no worker and no action has anything left to do. -/
def isQuiet (c : Crew φ) : Bool := c.leftovers.isEmpty && c.members.all fun m => !m.isBusy c.now

/-- Lets a millisecond pass if there is nothing left to do. -/
def tick (c : Crew φ) : Crew φ := if c.isQuiet then { c with now := c.now + 1 } else c

/-! ## Plays -/

/-- One thing that can happen to a crew. -/
inductive Move where
  /-- A worker takes a step. -/
  | work (worker : Nat)
  /-- A worker closes its run for layering while actions still wait to be started. -/
  | closeLate (worker : Nat)
  /-- An action of a worker is polled. -/
  | poll (worker position : Nat)
  /-- A worker takes the outcome of an action. -/
  | join (worker position : Nat)
  /-- A worker notices that its group is cancelled. -/
  | notice (worker : Nat)
  /-- A worker gives up its actions at the deadline. -/
  | giveUp (worker : Nat)
  /-- An action that was given up lets go of what it holds. -/
  | letGo (index : Nat)
  /-- A millisecond passes. -/
  | tick
  | start
  | stop
  /-- A worker that does not stop is taken away. -/
  | abort (worker : Nat)
  | request (request : Request)
  /-- The game window gains or loses the focus, or its activation begins or ceases to fail. -/
  | setFocus (active failing : Bool)
  /-- The device begins or ceases to refuse inputs or to crash on them. -/
  | setDevice (device : Device)
  deriving DecidableEq

variable [Feed φ]

/-- Makes a move. -/
def move (c : Crew φ) : Move → Crew φ
  | .work worker => c.work worker
  | .closeLate worker => c.closeLate worker
  | .poll worker position => c.poll worker position
  | .join worker position => c.join worker position
  | .notice worker => c.notice worker
  | .giveUp worker => c.giveUp worker
  | .letGo index => c.letGo index
  | .tick => c.tick
  | .start => c.start
  | .stop => c.stop
  | .abort worker => c.abort worker
  | .request r => (c.serve r).1
  | .setFocus active failing => { c with focus := { c.focus with active, failing } }
  | .setDevice device => { c with device }

/-- Makes moves one after another. -/
def play (c : Crew φ) (moves : List Move) : Crew φ := moves.foldl move c

/-! ## Small laws -/

@[simp] theorem play_nil (c : Crew φ) : c.play [] = c := rfl

@[simp] theorem play_cons (c : Crew φ) (m : Move) (moves : List Move) :
    c.play (m :: moves) = (c.move m).play moves := rfl

theorem play_append (c : Crew φ) (first second : List Move) :
    c.play (first ++ second) = (c.play first).play second := by
  simp [play, List.foldl_append]

end Crew

end Combo
