-- SUMMARY: The queue: pending and running groups, bounded history, the count of refused scripts, and its operations.
import Combo.Queue.Control
import Combo.Script.Check
import Combo.Number.Duration

/-!
# The queue

The queue holds the groups of the latest accepted script that are still to be
run, the groups handed out and not yet reported, and a bounded history of
reports. A script that is accepted replaces what is pending. What happens to the
running group depends on the mode: it is interrupted, or only what conflicts is,
and the first group of the script is layered onto it if the executor agrees.

The executor is called only while a group is outstanding, so that an interrupt
never falls upon a group queued after it.
-/

namespace Combo

/-- Why a script is not taken in. -/
inductive QueueError where
  | invalid (fault : Script.Fault)
  | tooManyInvalid (limit : Nat) (last : Script.Fault)
  | stopped
  deriving DecidableEq

namespace QueueError

/-- The wording of a queue error. -/
def message : QueueError → String
  | .invalid fault => "Invalid script: " ++ fault.message
  | .tooManyInvalid limit last =>
    "Too many consecutive invalid scripts (" ++ Number.natText limit ++ "), last error: "
      ++ last.message
  | .stopped => "Action queue has been stopped"

/-- Whether the limit of consecutive refusals was reached. -/
def isLimit : QueueError → Bool
  | .tooManyInvalid _ _ => true
  | .invalid _ | .stopped => false

end QueueError

/-- A group that was handed out and is not reported yet. -/
structure Outstanding where
  id : Nat
  group : Group
  /-- The instant it was handed out, in milliseconds. -/
  since : Nat
  deriving DecidableEq, Inhabited

/-- Pending groups, outstanding groups and history. -/
structure Queue where
  engine : Engine
  pending : List Ticket := []
  running : List Outstanding := []
  /-- The latest reports, oldest first. -/
  history : List Report := []
  /-- How many groups have been reported. -/
  finished : Nat := 0
  lastScript : String := ""
  /-- Consecutive refused scripts. -/
  errors : Nat := 0
  stopped : Bool := false
  /-- The number of the next group. -/
  nextId : Nat := 0
  deriving DecidableEq

namespace Queue

variable {σ : Type} [Control σ]

/-! ## Taking in scripts -/

/--
A running group with another one layered on. Actions that the incoming group
interrupts are dropped; the estimate counts from the instant the running group
was handed out.
-/
def mergeGroups (running incoming : Group) (elapsed : Float) : Group :=
  let surviving := running.actions.filter fun a => !a.kind.interrupted incoming.kinds
  { actions := surviving ++ incoming.actions
    estimate := longer (longest surviving) (elapsed + incoming.estimate) }

/-- The seconds since an instant. -/
def elapsed (now since : Nat) : Float := Duration.secondsOfMillis (now - since)

/-- Applies a function to the last element of a list. -/
def mapLast {α : Type} (f : α → α) : List α → List α
  | [] => []
  | [a] => [f a]
  | a :: b :: r => a :: mapLast f (b :: r)

/-- Layers a group onto the group handed out last. -/
def mergeIntoLast (now : Nat) (incoming : Group) (running : List Outstanding) : List Outstanding :=
  mapLast (fun o => { o with group := mergeGroups o.group incoming (elapsed now o.since) }) running

/-- Counts a refused script; at the limit the count starts again. -/
def refuse (q : Queue) (fault : Script.Fault) : QueueError × Queue :=
  let errors := q.errors + 1
  if q.engine.maxErrorCount ≤ errors then (.tooManyInvalid errors fault, { q with errors := 0 })
  else (.invalid fault, { q with errors })

/-- Numbers groups. -/
def number (first : Nat) (groups : List Group) : List Ticket :=
  groups.mapIdx fun i g => ⟨first + i, g⟩

/-- Makes room for an accepted script; whether its first group was layered. -/
def makeRoom (q : Queue) (groups : List Group) (s : σ) : σ × Bool :=
  if q.running.isEmpty then (s, false)
  else match q.engine.mode, groups with
    | .replace, _ => ((Control.interruptAll s).1, false)
    | .merge, first :: _ => Control.layer first (Control.interruptConflicting first s).1
    | .merge, [] => (s, false)

/-- Takes in the groups of an accepted script. -/
def accept (q : Queue) (now : Nat) (script : String) (groups : List Group) (layered : Bool) :
    Queue :=
  let tickets := number q.nextId groups
  { q with
    errors := 0
    lastScript := String.ofList (Text.trim script.toList)
    running := if layered then mergeIntoLast now ((groups.head?).getD default) q.running else q.running
    pending := if layered then tickets.drop 1 else tickets
    nextId := q.nextId + groups.length }

/-- Takes in a script; the number of its groups, or why it is refused. -/
def add (now : Nat) (script : String) (q : Queue) (s : σ) :
    Except QueueError Nat × Queue × σ :=
  if q.stopped then (.error .stopped, q, s)
  else match Script.check q.engine.maxActionSeconds script with
    | .error fault =>
      let (e, q) := q.refuse fault
      (.error e, q, s)
    | .ok groups =>
      let (s, layered) := q.makeRoom groups s
      (.ok groups.length, q.accept now script groups layered, s)

/-! ## Handing out and taking back -/

/-- Hands out the next group. -/
def next (now : Nat) (q : Queue) : Option Ticket × Queue :=
  match q.pending with
  | [] => (none, q)
  | t :: rest => (some t, { q with pending := rest, running := q.running ++ [⟨t.id, t.group, now⟩] })

/-- The latest `limit` elements. -/
def latest {α : Type} (limit : Nat) (xs : List α) : List α := xs.drop (xs.length - limit)

/-- Takes in the report of an outstanding group; other reports are ignored. -/
def complete (report : Report) (q : Queue) : Queue :=
  match q.running.findIdx? (·.id == report.id) with
  | none => q
  | some i =>
    { q with
      running := q.running.eraseIdx i
      history := latest q.engine.historyLimit (q.history ++ [report])
      finished := q.finished + 1 }

/-! ## Clearing and stopping -/

/-- Drops pending and running groups and interrupts the executor if a group is outstanding. -/
def dropWork (q : Queue) (s : σ) : Queue × σ :=
  ({ q with pending := [], running := [] },
    if q.running.isEmpty then s else (Control.interruptAll s).1)

/-- Drops pending, running and finished groups. -/
def clear (q : Queue) (s : σ) : Queue × σ :=
  let (q, s) := q.dropWork s
  ({ q with history := [], finished := 0 }, s)

/-- Drops pending and running groups and refuses any further script; the history stays. -/
def stop (q : Queue) (s : σ) : Queue × σ :=
  let (q, s) := q.dropWork s
  ({ q with stopped := true }, s)

/-- Forgets the refused scripts. -/
def resetErrors (q : Queue) : Queue := { q with errors := 0 }

/-! ## Status -/

/-- A snapshot of a queue. -/
structure Status where
  pendingText : String := ""
  pendingCount : Nat := 0
  completionMs : Nat := 0
  lastScript : String := ""
  finishedCount : Nat := 0
  finishedText : String := ""
  runningCount : Nat := 0
  runningText : String := ""
  errorCount : Nat := 0
  deriving DecidableEq, Repr, Inhabited

/-- The seconds an outstanding group is expected to go on. -/
def Outstanding.remaining (now : Nat) (o : Outstanding) : Float :=
  longer 0.0 (o.group.estimate - elapsed now o.since)

/-- The snapshot of a queue at an instant. -/
def status (now : Nat) (q : Queue) : Status :=
  let pending := q.pending.map (·.group)
  let runningSeconds := q.running.foldl (fun s o => s + Outstanding.remaining now o) 0.0
  { pendingText := Script.format pending
    pendingCount := pending.length
    completionMs := Duration.millisOfSeconds (totalEstimate pending + runningSeconds)
    lastScript := q.lastScript
    finishedCount := q.finished
    finishedText := Script.format (q.history.map (·.group))
    runningCount := q.running.length
    runningText := Script.format (q.running.map (·.group))
    errorCount := q.errors }

end Queue

end Combo
