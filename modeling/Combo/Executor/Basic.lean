-- SUMMARY: The executor: its worker, phases, focus and device, and the calls others may make at any moment.
import Combo.Executor.Run
import Combo.Config.Basic

/-!
# The executor

The executor runs groups one at a time. Its worker goes round: it asks for a
group, dispatches it, sees to the focus, opens the run for layering, joins the
actions, and reports. Between two of its steps others may interrupt actions,
layer actions onto the running group, start the worker or stop it; these calls
are functions here, and the steps of the worker are in `Combo.Clockwork.Step`.

An interrupt that arrives while a group is being dequeued is deferred and takes
effect on that group alone.
-/

namespace Combo

/-- What others see of the worker. -/
inductive Phase where
  | idle
  /-- Between asking for a group and dispatching it. -/
  | dequeuing
  | running
  deriving DecidableEq, Repr, Inhabited

/-- The name of a phase. -/
def Phase.name : Phase → String
  | .idle => "idle"
  | .dequeuing => "dequeuing"
  | .running => "running"

/-- Where a run stands. -/
inductive Step where
  /-- About to look whether the game window is active. -/
  | focusing
  /-- Giving the activated window time to settle. -/
  | settling (due : Nat)
  /-- About to start the actions. -/
  | opening
  /-- Waiting for the actions; `accepting` while more may be layered on. -/
  | joining (accepting : Bool)
  /-- About to finish; with a fault when the window could not be activated. -/
  | closing (fault : Option InputError)
  deriving DecidableEq, Repr

/-- Where the worker stands. -/
inductive Stage where
  | checking
  /-- About to ask for a group. -/
  | asking (deferred : Deferred)
  /-- Holding a group that is not dispatched yet. -/
  | taken (ticket : Ticket) (deferred : Deferred)
  | running (step : Step) (run : Run)
  /-- About to hand in a report; `faulty` when the worker has to rest afterwards. -/
  | reporting (report : Report) (faulty : Bool)
  | sleeping (due : Nat)
  /-- Dead: the feed crashed. -/
  | crashed
  deriving DecidableEq

/-- The worker. -/
structure Worker where
  /-- Whether the worker has been told to stop. -/
  stopping : Bool
  stage : Stage
  deriving DecidableEq

/-- One command that was sent for an action, and its answer. -/
structure Call where
  time : Nat
  /-- The number of the group. -/
  group : Nat
  /-- The position of the action in the group's run. -/
  position : Nat
  command : Command
  response : Response
  deriving DecidableEq, Repr

/-- Runs groups one at a time on an input device. -/
structure Executor where
  engine : Engine
  target : Target
  device : Device := {}
  focus : Focus := {}
  phase : Phase := .idle
  worker : Option Worker := none
  /-- Every command sent, oldest first. -/
  calls : List Call := []
  deriving DecidableEq

namespace Executor

/-! ## Views -/

/-- Whether a worker is at work and has not been told to stop. -/
def isStarted (x : Executor) : Bool :=
  match x.worker with
  | some w => !w.stopping
  | none => false

/-- The run of the worker, if it has one. -/
def run? (x : Executor) : Option Run :=
  match x.worker with
  | some ⟨_, .running _ run⟩ => some run
  | _ => none

/-- The running group; an interrupted one is not shown any more. -/
def current (x : Executor) : Option Group :=
  match x.run? with
  | some run => if run.cancelled then none else some run.group
  | none => none

/-- The keys of the actions that can still be cancelled, in order of acceptance. -/
def keys (x : Executor) : List String :=
  match x.run? with
  | some run => Run.keysOf run.entries
  | none => []

/-- The commands that were carried out, oldest first. -/
def events (x : Executor) : List Call := x.calls.filter (·.response == .done)

/-- The inputs pushed down more often than let up. -/
def held (x : Executor) : List Input := heldAfter (x.events.map (·.command))

/-! ## Calls -/

/-- Sets the stage of the worker. -/
def setStage (x : Executor) (stage : Stage) : Executor :=
  { x with worker := x.worker.map fun w => { w with stage } }

/-- Interrupts everything; the number of actions that were listed. -/
def interruptAll (x : Executor) : Executor × Nat :=
  match x.worker with
  | some ⟨_, .asking d⟩ => (x.setStage (.asking { d with all := true }), 0)
  | some ⟨_, .taken t d⟩ => (x.setStage (.taken t { d with all := true }), 0)
  | some ⟨_, .running step run⟩ =>
    let (run, count) := run.interruptAll
    (x.setStage (.running step run), count)
  | _ => (x, 0)

/-- Interrupts what conflicts with a group; the number of actions that were cancelled. -/
def interruptConflicting (g : Group) (x : Executor) : Executor × Nat :=
  match x.worker with
  | some ⟨_, .asking d⟩ => (x.setStage (.asking { d with kinds := d.kinds ++ g.kinds }), 0)
  | some ⟨_, .taken t d⟩ => (x.setStage (.taken t { d with kinds := d.kinds ++ g.kinds }), 0)
  | some ⟨_, .running step run⟩ =>
    let (run, count) := run.interruptConflicting g.kinds
    (x.setStage (.running step run), count)
  | _ => (x, 0)

/-- Whether some actions need the focus. -/
def needsFocus (x : Executor) (g : Group) : Bool :=
  x.target.requireFocus && g.kinds.any Kind.needsFocus

/-- Layers a group onto the running one, or refuses and changes nothing. -/
def layer (g : Group) (x : Executor) : Executor × Bool :=
  match x.worker with
  | some ⟨_, .running (.joining true) run⟩ =>
    if run.cancelled || (x.needsFocus g && !run.needsFocus) then (x, false)
    else (x.setStage (.running (.joining true) (run.layer g.actions)), true)
  | _ => (x, false)

/-- Starts a worker unless there is one; one that is about to leave counts. -/
def start (x : Executor) : Executor :=
  match x.worker with
  | some _ => x
  | none => { x with worker := some ⟨false, .checking⟩ }

/-- Tells the worker to stop and interrupts everything. A dead worker is taken away at once. -/
def requestStop (x : Executor) : Executor :=
  match x.worker with
  | none => x
  | some ⟨_, .crashed⟩ => { x with worker := none }
  | some w => ({ x with worker := some { w with stopping := true } } : Executor).interruptAll.1

/-- The commands sent when all actions of a run are dropped at an instant. -/
def dropCalls (device : Device) (now : Nat) (run : Run) : List Call :=
  (run.entries.zipIdx).filterMap fun (e, position) =>
    (e.progress.drop device).map fun (command, response) =>
      ⟨now, run.id, position, command, response⟩

/-- Takes the worker away where it stands; its actions are dropped and no report is made. -/
def abort (now : Nat) (x : Executor) : Executor :=
  match x.run? with
  | some run => { x with worker := none, calls := x.calls ++ dropCalls x.device now run }
  | none => { x with worker := none }

end Executor

/-! ## Requests -/

/-- What may be asked of an executor from outside. -/
inductive Request where
  | interruptAll
  | interruptConflicting (group : Group)
  | layer (group : Group)
  deriving DecidableEq

/-- The answer to a request: a number of actions, or whether the group was accepted. -/
inductive Answer where
  | count (actions : Nat)
  | accepted (yes : Bool)
  deriving DecidableEq

/-- Serves a request. -/
def Executor.serve (x : Executor) : Request → Executor × Answer
  | .interruptAll => let (x, n) := x.interruptAll; (x, .count n)
  | .interruptConflicting g => let (x, n) := x.interruptConflicting g; (x, .count n)
  | .layer g => let (x, yes) := x.layer g; (x, .accepted yes)

end Combo
